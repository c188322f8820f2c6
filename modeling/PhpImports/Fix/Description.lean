import PhpImports.Fix.Basic

/-!
# PhpImports — what the fixer says of itself

Name, summary, samples and options, for listings of fixers.

* `Description` — what a listing shows of a fixer.
* `description` — this one's.
-/

namespace PhpImports

/-- A piece of code that shows the fixer at work under some options. -/
structure Sample where
  code : String
  configuration : List (String × String)

/-- What a listing shows of a fixer. -/
structure Description where
  name : String
  summary : String
  samples : List Sample
  /-- Whether a fix can change what code does. -/
  risky : Bool
  /-- Its place among other fixers, which run in descending order. -/
  priority : Int
  options : List OptionInfo

/-- Lines, each ended by a line break. -/
def unlines (lines : List String) : String :=
  String.join (lines.map (· ++ "\n"))

/-- A test that uses a class without importing it. -/
def sampleMissing : String :=
  unlines [
    "<?php",
    "",
    "namespace Tests\\Unit\\App;",
    "",
    "class ExampleTest extends TestCase",
    "\x7b",
    "    public function testExample()",
    "    \x7b",
    "        $mock = $this->createMock(SomeService::class);",
    "        $result = new \\App\\Entity\\User();",
    "    \x7d",
    "\x7d"]

/-- The same test with the import. -/
def sampleFixed : String :=
  unlines [
    "<?php",
    "",
    "namespace Tests\\Unit\\App;",
    "",
    "use App\\SomeService;",
    "",
    "class ExampleTest extends TestCase",
    "\x7b",
    "    public function testExample()",
    "    \x7b",
    "        $mock = $this->createMock(SomeService::class);",
    "        $result = new \\App\\Entity\\User();",
    "    \x7d",
    "\x7d"]

/-- The options under which the samples are shown. -/
def sampleConfiguration : List (String × String) :=
  [(prefixOption, "Tests\\Unit\\")]

/-- What a listing shows of this fixer. -/
def description : Description where
  name := "tranxton/add_missing_imports"
  summary := "Automatically adds missing use statements for classes in test files."
  samples := [⟨sampleMissing, sampleConfiguration⟩, ⟨sampleFixed, sampleConfiguration⟩]
  risky := true
  priority := 0
  options := optionInfos

end PhpImports
