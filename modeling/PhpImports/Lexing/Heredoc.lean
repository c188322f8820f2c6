import PhpImports.Lexing.Rule

/-!
# PhpImports — heredocs

A heredoc or nowdoc opens with a line that names a label. Its body ends with the
label in the first line that holds nothing before it but spaces and tabs, and does
not carry the label on. A body without such a line runs to the end of the source.

* `heredocLabel` — the label that an opening line names.
* `closingLabel?` — the end of the label in a line that closes.
* `heredocBodyLength` — the length of the body, closing label included.
-/

namespace PhpImports

/-- The label in an opening line: its run of word characters. -/
def heredocLabel (opener : List Char) : List Char :=
  (opener.dropWhile (!isWordChar ·)).takeWhile isWordChar

/-- If a text begins with a line that closes the label's heredoc: the number of its
characters through the label. -/
def closingLabel? (label cs : List Char) : Option Nat :=
  let content := cs.dropWhile isIndent
  if label.isPrefixOf content && !(content.drop label.length).head?.any isLabelChar then
    some ((cs.takeWhile isIndent).length + label.length)
  else none

/-- Length of a heredoc's body through its closing label, or of the whole text if nothing
closes it; `lineStart` says whether the text begins at the start of a line. -/
def heredocBodyLength (label : List Char) : Bool → List Char → Nat
  | _, [] => 0
  | lineStart, c :: cs =>
    -- Only the start of a line can close; a label inside a line is part of the body.
    match if lineStart then closingLabel? label (c :: cs) else none with
    | some n => n
    | none => heredocBodyLength label (c == '\n') cs + 1

end PhpImports
