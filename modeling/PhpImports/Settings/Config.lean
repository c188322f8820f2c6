import PhpImports.Settings.Option
import PhpImports.Text.Blank

/-!
# PhpImports — configuration

There is one option: a text that is taken out of a unit's namespace to get the
namespace of the classes it imports. It has to be set, and not to a blank text, before
units can be fixed, but not before that.

* `ConfigError`, `ConfigError.message` — what can be wrong with options.
* `Config.resolve` — a configuration from options; the first entry at fault is reported.
* `Config.requirePrefix` — the text to take out, if it is set and not blank.
-/

namespace PhpImports

/-- The name of the only option. -/
def prefixOption : String := "namespace_prefix_to_remove"

/-- What an option is for. -/
structure OptionInfo where
  name : String
  description : String
  allowedType : String

/-- The options that can be set. -/
def optionInfos : List OptionInfo :=
  [⟨prefixOption,
    "Prefix removed from the file's namespace to derive the namespace of imported classes.",
    "string"⟩]

/-- What can be wrong with options. -/
inductive ConfigError where
  /-- A required option is not set, or blank. -/
  | missing (name : String)
  /-- There is no such option. -/
  | unknown (name : String)
  /-- The value is not of the type of the option. -/
  | wrongType (name expected found : String)
  deriving DecidableEq

/-- The text that reports an error. -/
def ConfigError.message : ConfigError → String
  | missing name => "Configuration option \"" ++ name ++ "\" is required."
  | unknown name => "Unknown configuration option \"" ++ name ++ "\"."
  | wrongType name expected found =>
    "Configuration option \"" ++ name ++ "\" expects " ++ expected ++ ", got " ++ found ++ "."

/-- The configuration of a fixer. -/
structure Config where
  /-- The text to take out of namespaces, if it is set. -/
  namespacePrefix : Option String := none
  deriving DecidableEq

namespace Config

/-- Sets one option. -/
def set (c : Config) (name : String) (value : OptionValue) : Except ConfigError Config :=
  if name = prefixOption then
    match value with
    | .string s => .ok { c with namespacePrefix := some s }
    | other => .error (.wrongType prefixOption "string" other.typeName)
  else .error (.unknown name)

/-- Sets options one after another, up to the first that cannot be set. -/
def setAll (c : Config) : List (String × OptionValue) → Except ConfigError Config
  | [] => .ok c
  | (name, value) :: es =>
    match c.set name value with
    | .ok c => c.setAll es
    | .error e => .error e

/-- The configuration that options describe. -/
def resolve (o : Options) : Except ConfigError Config :=
  setAll {} o.entries

/-- The text to take out of namespaces, which has to be set and not blank. -/
def requirePrefix (c : Config) : Except ConfigError String :=
  match c.namespacePrefix with
  | some s => if isBlankText s then .error (.missing prefixOption) else .ok s
  | none => .error (.missing prefixOption)

end Config

end PhpImports
