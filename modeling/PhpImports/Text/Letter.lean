/-!
# PhpImports — classes of characters

Words (identifiers, variables, heredoc labels) are written in ASCII. Reserved
words are recognised in any letter case, and two characters outside ASCII fold
onto an ASCII letter: the long s `ſ` onto `s`, the Kelvin sign onto `k`.

* `isWordStart`, `isWordChar` — first and later characters of a word.
* `isLabelChar` — a character that would carry a heredoc label on.
* `isLayout`, `isIndent` — what stands between tokens, and before them in a line.
* `foldsTo` — a character standing for a lower-case letter of a reserved word.
-/

namespace PhpImports

/-- First character of a word: an ASCII letter or an underscore. -/
def isWordStart (c : Char) : Bool :=
  c.isAlpha || c == '_'

/-- Later character of a word: an ASCII letter or digit or an underscore. -/
def isWordChar (c : Char) : Bool :=
  c.isAlphanum || c == '_'

/-- Characters that carry a label on: word characters and everything outside ASCII. -/
def isLabelChar (c : Char) : Bool :=
  isWordChar c || 128 ≤ c.toNat

/-- A character that lays out code: a space, a tab or half of a line break. -/
def isLayout (c : Char) : Bool :=
  c == ' ' || c == '\t' || c == '\r' || c == '\n'

/-- A space or a tab. -/
def isIndent (c : Char) : Bool :=
  c == ' ' || c == '\t'

/-- A hexadecimal digit. -/
def isHexDigit (c : Char) : Bool :=
  c.isDigit || ('a' ≤ c && c ≤ 'f') || ('A' ≤ c && c ≤ 'F')

/-- Whether `c` may stand for the character `l` of a reserved word: it is `l` up to ASCII
letter case, or one of the two characters outside ASCII that fold onto `l`. -/
def foldsTo (c l : Char) : Bool :=
  c.toLower == l || (c == 'ſ' && l == 's') || (c == '\u212a' && l == 'k')

/-- Equality of texts up to the case of ASCII letters. -/
def equalIgnoringCase (s t : String) : Bool :=
  s.toList.map Char.toLower == t.toList.map Char.toLower

theorem isWordChar_of_isWordStart {c : Char} (h : isWordStart c = true) : isWordChar c = true := by
  simp only [isWordStart, isWordChar, Char.isAlphanum, Bool.or_eq_true] at h ⊢
  rcases h with h | h
  · exact .inl (.inl h)
  · exact .inr h

end PhpImports
