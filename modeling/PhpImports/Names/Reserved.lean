import PhpImports.Text.Letter

/-!
# PhpImports — names that are never imported

Built-in types, constant values and the words by which a class refers to itself
look like class names where a class name may stand. They are never imported, in
whatever letter case they are written.

* `ReservedName.all` — the table.
* `ReservedName.ofText?` — look-up by text.
* `isReserved` — whether a text is in the table.
-/

namespace PhpImports

/-- A name that never needs an import. -/
inductive ReservedName where
  | int
  | float
  | string
  | bool
  | array
  | object
  | callable
  | iterable
  | void
  | mixed
  | never
  | trueValue
  | falseValue
  | nullValue
  | self
  | static
  | parent
  | this
  deriving DecidableEq

namespace ReservedName

/-- The whole table, in order. -/
def all : List ReservedName :=
  [.int, .float, .string, .bool, .array, .object, .callable, .iterable, .void, .mixed, .never,
    .trueValue, .falseValue, .nullValue, .self, .static, .parent, .this]

/-- The name in lower case. -/
def spelling : ReservedName → String
  | .int => "int"
  | .float => "float"
  | .string => "string"
  | .bool => "bool"
  | .array => "array"
  | .object => "object"
  | .callable => "callable"
  | .iterable => "iterable"
  | .void => "void"
  | .mixed => "mixed"
  | .never => "never"
  | .trueValue => "true"
  | .falseValue => "false"
  | .nullValue => "null"
  | .self => "self"
  | .static => "static"
  | .parent => "parent"
  | .this => "$this"

/-- The name under which an entry is reported: the capitalised spelling, but for the two
entries whose spelling is taken or is no word. -/
def label : ReservedName → String
  | .self => "SelfRef"
  | .this => "This"
  | r => r.spelling.capitalize

/-- The entry of a text, whatever the case of its letters. -/
def ofText? (s : String) : Option ReservedName :=
  all.find? fun r => equalIgnoringCase r.spelling s

theorem mem_all (r : ReservedName) : r ∈ all := by
  cases r <;> decide

end ReservedName

/-- Whether a text is a name that never needs an import. -/
def isReserved (s : String) : Bool :=
  (ReservedName.ofText? s).isSome

/-- A text is reserved exactly when it spells an entry up to letter case. -/
theorem isReserved_iff {s : String} :
    isReserved s = true ↔ ∃ r : ReservedName, equalIgnoringCase r.spelling s = true := by
  simp only [isReserved, ReservedName.ofText?, List.find?_isSome]
  exact ⟨fun ⟨r, _, h⟩ => ⟨r, h⟩, fun ⟨r, h⟩ => ⟨r, ReservedName.mem_all r, h⟩⟩

theorem isReserved_eq_false_iff {s : String} :
    isReserved s = false ↔ ∀ r : ReservedName, equalIgnoringCase r.spelling s = false := by
  rw [← Bool.not_eq_true, isReserved_iff, not_exists]
  simp only [Bool.not_eq_true]

end PhpImports
