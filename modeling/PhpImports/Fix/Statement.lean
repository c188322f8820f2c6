import PhpImports.Names.Namespace
import PhpImports.Names.Segments
import PhpImports.Token.Sequence

/-!
# PhpImports — generated imports

Missing imports are put in as whole tokens, one statement a line. They come behind the
last import of the unit, or else behind its namespace declaration.

* `importStatement` — the tokens of one import.
* `importBlock` — the tokens of several.
* `TokenSeq.addImports` — puts them into a unit.
-/

namespace PhpImports

/-- The tokens of an import of `name` from the namespace with the given segments, on a line
of its own. -/
def importStatement (segments : List String) (name : String) : List Token :=
  [⟨.whitespace, "\n"⟩, ⟨.keyword .useKw, "use"⟩, ⟨.whitespace, " "⟩] ++
    segments.flatMap (fun s => [⟨.identifier, s⟩, ⟨.nsSeparator, "\\"⟩]) ++
    [⟨.identifier, name⟩, ⟨.semicolon, ";"⟩]

/-- The imports of several names, in order. -/
def importBlock (segments names : List String) : List Token :=
  names.flatMap (importStatement segments)

/-- Position of the token behind which imports are put. -/
def importAnchor (ns : NamespaceDecl) (lastImport : Option Nat) : Nat :=
  lastImport.getD ns.stop

/-- Puts in the imports of `names`, token by token: behind the last import, which ends at
`lastImport`, or else behind the namespace declaration. They name the namespace `ns` with `part`
taken out. -/
def TokenSeq.addImports (s : TokenSeq) (part : String) (names : List String) (ns : NamespaceDecl)
    (lastImport : Option Nat) : TokenSeq :=
  s.insertEach (importAnchor ns lastImport + 1) (importBlock (importSegments part ns.name) names)

theorem TokenSeq.addImports_eq_splice (s : TokenSeq) (part : String) (names : List String)
    (ns : NamespaceDecl) (lastImport : Option Nat) :
    s.addImports part names ns lastImport =
      s.splice (importAnchor ns lastImport + 1)
        (importBlock (importSegments part ns.name) names) :=
  s.insertEach_eq_splice _ _

theorem length_importStatement (segments : List String) (name : String) :
    (importStatement segments name).length = 5 + 2 * segments.length := by
  have h : (segments.flatMap fun s =>
      [(⟨.identifier, s⟩ : Token), ⟨.nsSeparator, "\\"⟩]).length = 2 * segments.length := by
    induction segments with
    | nil => rfl
    | cons s ss ih =>
      rw [List.flatMap_cons, List.length_append, ih]
      simp only [List.length_cons, List.length_nil]
      omega
  simp only [importStatement, List.length_append, h, List.length_cons, List.length_nil]
  omega

theorem length_importBlock (segments names : List String) :
    (importBlock segments names).length = names.length * (5 + 2 * segments.length) := by
  induction names with
  | nil => simp [importBlock]
  | cons n ns ih =>
    rw [importBlock] at ih
    rw [importBlock, List.flatMap_cons, List.length_append, ih, length_importStatement,
      List.length_cons, Nat.add_one_mul ns.length]
    exact Nat.add_comm _ _

end PhpImports
