import PhpImports.Settings.Config
import PhpImports.Settings.Version

/-!
# PhpImports — records in documents

Configurations and versions are also read from structured documents. A record may be
written as an object with named fields or as an array of its fields in order.

* `Document` — a structured document.
* `Config.ofDocument?` — no other fields; a field left out or null is not set.
* `Version.ofDocument?` — other fields are passed over; only the release may be left out.
-/

namespace PhpImports

/-- A structured document. -/
inductive Document where
  | null
  | bool (b : Bool)
  | integer (n : Int)
  /-- A number with a fraction; its value is of no account here. -/
  | fraction
  | text (s : String)
  | array (items : List Document)
  | object (fields : List (String × Document))

namespace Document

/-- The value of a field. -/
def field? (name : String) (fields : List (String × Document)) : Option Document :=
  fields.lookup name

/-- An integer that fits an unsigned word of 32 bits. -/
def word? : Document → Option UInt32
  | integer (.ofNat n) => if n < UInt32.size then some (UInt32.ofNat n) else none
  | _ => none

/-- A text, or null for none. -/
def optionalText? : Document → Option (Option String)
  | null => some none
  | text s => some (some s)
  | _ => none

end Document

open Document

/-- Reads a configuration. -/
def Config.ofDocument? : Document → Option Config
  | .object fields =>
    if fields.all (·.1 == prefixOption) then
      match field? prefixOption fields with
      | none => some {}
      | some d => d.optionalText?.map fun s => ⟨s⟩
    else none
  | .array [] => some {}
  | .array [d] => d.optionalText?.map fun s => ⟨s⟩
  | _ => none

/-- Reads a version from its fields; a release that is left out is zero. -/
def Version.ofFields? (major minor release : Option Document) : Option Version := do
  let major ← (← major).word?
  let minor ← (← minor).word?
  match release with
  | none => some ⟨major, minor, 0⟩
  | some d => d.word?.map fun release => ⟨major, minor, release⟩

/-- Reads a version. -/
def Version.ofDocument? : Document → Option Version
  | .object fields =>
    Version.ofFields? (field? "major" fields) (field? "minor" fields) (field? "release" fields)
  | .array [major, minor] => Version.ofFields? major minor none
  | .array [major, minor, release] => Version.ofFields? major minor release
  | _ => none

end PhpImports
