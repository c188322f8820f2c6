import PhpImports.Fix.Statement
import PhpImports.Lexing.Basic
import PhpImports.Names.Analysis
import PhpImports.Settings.Config
import PhpImports.Settings.Version

/-!
# PhpImports — fixing a unit

A unit is fixed by putting in the imports it lacks. A unit without a namespace, or with
nothing missing, stays as it is. A fix works on the unit in place and can fail; what it
has changed by then stays changed, and likewise for new options and the fixer.

* `Fixer.configure` — takes a new configuration from options.
* `Fixer.fixInPlace` — fixes a token sequence in place.
* `Fixer.fix` — the fixed token sequence.
* `Fixer.isCandidate` — whether a unit can need a fix, by its version and tally.
* `Fixer.fixFile`, `Fixer.fixFiles` — fix the texts of files.
-/

namespace PhpImports

/-- A configured fixer. -/
structure Fixer where
  config : Config := {}
  /-- The paths of the files that are fixed. -/
  supports : String → Bool := fun _ => true

/-- A unit after a fix. -/
structure Fixed where
  tokens : TokenSeq
  /-- The names of the imports that were put in. -/
  inserted : List String
  deriving DecidableEq

/-- Whether a fix has changed the unit. -/
def Fixed.isChanged (r : Fixed) : Bool :=
  !r.inserted.isEmpty

/-- A file to be fixed, in memory. -/
structure SourceFile where
  path : String
  source : String
  deriving DecidableEq

/-- Work on a state that can fail. A failure does not undo what was done to the state. -/
abbrev InPlace (σ α : Type) := ExceptT ConfigError (StateM σ) α

/-- Carries out work on a state: its result, and the state that it leaves. -/
def InPlace.on {σ α : Type} (work : InPlace σ α) (s : σ) : Except ConfigError α × σ :=
  work.run.run s

namespace Fixer

/-- The fixer that passes over all files but those with the ending of source files. -/
def onlyPhpFiles (config : Config) : Fixer :=
  { config, supports := fun path => path.endsWith ".php" }

/-- Takes the configuration of a fixer from options. -/
def configure (options : Options) : InPlace Fixer Unit := do
  let config ← Config.resolve options
  modify ({ · with config })

/-- Puts the missing imports into a unit and returns their names, or reports that the configuration
is not complete. -/
def fixInPlace (f : Fixer) : InPlace TokenSeq (List String) := do
  let part ← f.config.requirePrefix
  let s ← get
  if (usedNames s.tokens).isEmpty then return []
  let some ns := namespaceDecl? s.tokens | return []
  let missing := missingNames s.tokens
  if missing.isEmpty then return []
  modify (·.addImports part missing ns (importScan s.tokens).lastEnd)
  return missing

/-- The unit after a fix, with the names of the imports that were put in. -/
def fix (f : Fixer) (s : TokenSeq) : Except ConfigError Fixed :=
  let (result, tokens) := f.fixInPlace.on s
  result.map fun inserted => ⟨tokens, inserted⟩

/-- The kinds of which one is present in every unit that uses a class. -/
def usageKinds : List Kind :=
  [.keyword .newKw, .doubleColon, .keyword .catchKw, .keyword .functionKw]

/-- Whether a unit can need a fix: it is for an old version, has a namespace, and may use a
class. -/
def isCandidate (s : TokenSeq) (target : Version) : Bool :=
  target.isLegacy && s.hasKind (.keyword .namespaceKw) && s.hasAnyKind usageKinds

/-- Fixes a file: its new text, or none if the unit is not looked at or not changed. -/
def fixFile (f : Fixer) (file : SourceFile) (target : Version) :
    Except ConfigError (Option String) :=
  if f.supports file.path then
    let s := TokenSeq.ofSource file.source
    if isCandidate s target then
      match f.fix s with
      | .ok r => .ok (if r.isChanged then some r.tokens.source else none)
      | .error e => .error e
    else .ok none
  else .ok none

/-- Fixes files, each on its own. -/
def fixFiles (f : Fixer) (files : List SourceFile) (target : Version) :
    List (Except ConfigError (Option String)) :=
  files.map (f.fixFile · target)

end Fixer

end PhpImports
