import PhpImports.Text.Blank

/-!
# PhpImports — text around the code

Code stands between an open tag and a close tag; everything else is markup. An open
tag is `<?=`, or `<?php` in any letter case before a blank or the end of the source.

* `opensCode` — an open tag stands at the beginning of a text.
* `markupLength` — the distance to the first open tag.
* `lineBreakLength` — the line break that belongs to a close tag.
-/

namespace PhpImports

/-- Whether a text begins with an open tag. -/
def opensCode : List Char → Bool
  | '<' :: '?' :: '=' :: _ => true
  | '<' :: '?' :: p :: h :: q :: rest =>
    p.toLower == 'p' && h.toLower == 'h' && q.toLower == 'p' && rest.head?.all isBlank
  | _ => false

/-- Number of characters before the first open tag, or before the end if there is none. -/
def markupLength : List Char → Nat
  | [] => 0
  | c :: cs => if opensCode (c :: cs) then 0 else markupLength cs + 1

/-- Length of the line break that a text begins with. -/
def lineBreakLength : List Char → Nat
  | '\r' :: '\n' :: _ => 2
  | '\n' :: _ => 1
  | _ => 0

theorem markupLength_le (cs : List Char) : markupLength cs ≤ cs.length := by
  induction cs with
  | nil => simp [markupLength]
  | cons c cs ih =>
    unfold markupLength
    split
    · simp
    · simpa using ih

/-- The markup ends where an open tag stands or the text ends. -/
theorem drop_markupLength (cs : List Char) :
    cs.drop (markupLength cs) = [] ∨ opensCode (cs.drop (markupLength cs)) = true := by
  induction cs with
  | nil => simp
  | cons c cs ih =>
    unfold markupLength
    split
    · next h => exact .inr h
    · simpa using ih

end PhpImports
