import PhpImports.Names.Declaration
import PhpImports.Names.Import
import PhpImports.Names.Namespace
import PhpImports.Names.Usage

/-!
# PhpImports — what a unit uses, imports and declares

The results of all scans side by side, and the names that are missing: used, but neither
imported nor declared.

* `resolvedNames` — the names that need no import.
* `missingNames` — the names to be imported.
* `Analysis`, `Analysis.ofTokens` — all results.
-/

namespace PhpImports

/-- The names that a unit imports or declares, each once. -/
def resolvedNames (ts : List Token) : List String :=
  (importedNames ts ++ declaredTypes ts).eraseDups

/-- The names that a unit uses but neither imports nor declares, in the order of their first
appearance. -/
def missingNames (ts : List Token) : List String :=
  (usedNames ts).filter (· ∉ resolvedNames ts)

/-- The results of all scans of a unit. -/
structure Analysis where
  instantiations : List String
  staticAccesses : List String
  caughtTypes : List String
  signatureTypes : List String
  used : List String
  namespaceDecl : Option NamespaceDecl
  imports : List String
  lastImport : Option Nat
  declared : List String
  /-- The names that need no import, in the order of their characters' code points. -/
  resolved : List String

/-- Runs all scans. -/
def Analysis.ofTokens (ts : List Token) : Analysis :=
  let scan := importScan ts
  { instantiations := PhpImports.instantiations ts
    staticAccesses := PhpImports.staticAccesses ts
    caughtTypes := PhpImports.caughtTypes ts
    signatureTypes := PhpImports.signatureTypes ts
    used := usedNames ts
    namespaceDecl := namespaceDecl? ts
    imports := scan.names
    lastImport := scan.lastEnd
    declared := declaredTypes ts
    resolved := (resolvedNames ts).mergeSort (· ≤ ·) }

theorem mem_resolvedNames {ts : List Token} {n : String} :
    n ∈ resolvedNames ts ↔ n ∈ importedNames ts ∨ n ∈ declaredTypes ts := by
  simp [resolvedNames]

theorem mem_missingNames {ts : List Token} {n : String} :
    n ∈ missingNames ts ↔ n ∈ usedNames ts ∧ n ∉ importedNames ts ∧ n ∉ declaredTypes ts := by
  simp [missingNames, mem_resolvedNames]

end PhpImports
