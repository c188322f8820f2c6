/-!
# PhpImports — options

Options come from outside as names with values of some type. They keep the order in
which their names were first given; a name given again gets the new value in its old
place.

* `OptionValue.typeName` — the type of a value, as it is reported.
* `Options.insert` — gives a value to a name.
* `Options.ofPairs` — gives values one after another.
-/

namespace PhpImports

/-- The value of an option, as it is supplied. -/
inductive OptionValue where
  | null
  | bool (b : Bool)
  | int (n : Int)
  | float (x : Float)
  | string (s : String)
  | list (values : List OptionValue)

/-- The reported type of a value. -/
def OptionValue.typeName : OptionValue → String
  | null => "null"
  | bool _ => "bool"
  | int _ => "int"
  | float _ => "float"
  | string _ => "string"
  | list _ => "array"

/-- Named values in the order of their names' first appearance. -/
structure Options where
  entries : List (String × OptionValue) := []

namespace Options

/-- Puts a value in the place of its name, or behind all others if the name is new. -/
def insertEntry (name : String) (value : OptionValue) :
    List (String × OptionValue) → List (String × OptionValue)
  | [] => [(name, value)]
  | e :: es => if e.1 = name then (name, value) :: es else e :: insertEntry name value es

/-- Gives a value to a name. -/
def insert (o : Options) (name : String) (value : OptionValue) : Options :=
  ⟨insertEntry name value o.entries⟩

/-- Gives values to names, one after another. -/
def ofPairs (pairs : List (String × OptionValue)) : Options :=
  pairs.foldl (fun o (name, value) => o.insert name value) {}

end Options

end PhpImports
