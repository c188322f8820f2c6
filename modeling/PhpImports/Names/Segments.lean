/-!
# PhpImports — namespace segments

A generated import names the namespace of the unit with a configured text taken
out. The text is removed wherever it stands, in one pass from the left, and what
is left is cut at the namespace separator.

* `removeAll` — one pass that drops every occurrence of a text.
* `pieces` — the pieces between separators; there is always at least one.
* `importSegments` — the segments written into a generated import.
-/

namespace PhpImports

/-- The character between the segments of a namespace. -/
def separator : Char := '\\'

/-- Drops the leftmost occurrences of `part` that do not overlap, in one pass; `skip`
characters of an occurrence already found are still to be dropped. Occurrences that come
about by the removal itself stay. -/
def removeFrom (part : List Char) : Nat → List Char → List Char
  | _, [] => []
  | skip + 1, _ :: cs => removeFrom part skip cs
  | 0, c :: cs =>
    if part.isPrefixOf (c :: cs) then removeFrom part (part.length - 1) cs
    else c :: removeFrom part 0 cs

/-- The text without the occurrences of `part`; an empty `part` removes nothing. -/
def removeAll (part text : List Char) : List Char :=
  if part.isEmpty then text else removeFrom part 0 text

/-- The pieces of a text between the separators `sep`, empty ones included. -/
def pieces (sep : Char) : List Char → List (List Char)
  | [] => [[]]
  | c :: cs =>
    if c = sep then [] :: pieces sep cs
    else match pieces sep cs with
      | [] => [[c]]
      | piece :: others => (c :: piece) :: others

/-- Segments of the namespace that generated imports name: `part` is removed from the
unit's namespace, and the rest is cut at the separators. -/
def importSegments (part ns : String) : List String :=
  (pieces separator (removeAll part.toList ns.toList)).map String.ofList

theorem pieces_ne_nil (sep : Char) (cs : List Char) : pieces sep cs ≠ [] := by
  cases cs with
  | nil => simp [pieces]
  | cons c cs =>
    unfold pieces
    split
    · simp
    · split <;> simp

/-- Joining the pieces with the separator gives the text back. -/
theorem intercalate_pieces (sep : Char) (cs : List Char) :
    [sep].intercalate (pieces sep cs) = cs := by
  induction cs with
  | nil => rfl
  | cons c cs ih =>
    unfold pieces
    split
    · next h =>
      subst h
      cases hs : pieces c cs with
      | nil => exact absurd hs (pieces_ne_nil c cs)
      | cons p ps =>
        rw [hs] at ih
        simp [List.intercalate_cons_cons, ih]
    · cases hs : pieces sep cs with
      | nil => exact absurd hs (pieces_ne_nil sep cs)
      | cons p ps =>
        rw [hs] at ih
        cases ps with
        | nil => simp_all [List.intercalate]
        | cons q qs => simp_all [List.intercalate_cons_cons]

end PhpImports
