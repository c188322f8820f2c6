/-!
# PhpImports — reserved words

The reserved words that the lexer knows. They are written in any letter case.

* `Keyword.all` — the words in alphabetical order.
* `Keyword.spelling` — the word in lower case.
* `Keyword.name` — the name under which a word's token kind is reported.
-/

namespace PhpImports

/-- A reserved word of PHP. -/
inductive Keyword where
  | abstractKw
  | arrayKw
  | asKw
  | breakKw
  | callableKw
  | caseKw
  | catchKw
  | classKw
  | cloneKw
  | constKw
  | continueKw
  | declareKw
  | defaultKw
  | doKw
  | echoKw
  | elseKw
  | elseifKw
  | extendsKw
  | finalKw
  | finallyKw
  | fnKw
  | forKw
  | foreachKw
  | functionKw
  | globalKw
  | ifKw
  | implementsKw
  | instanceofKw
  | insteadofKw
  | interfaceKw
  | namespaceKw
  | newKw
  | privateKw
  | protectedKw
  | publicKw
  | returnKw
  | staticKw
  | switchKw
  | throwKw
  | traitKw
  | tryKw
  | useKw
  | varKw
  | whileKw
  | yieldKw
  deriving DecidableEq

namespace Keyword

/-- All reserved words, in alphabetical order. -/
def all : List Keyword :=
  [.abstractKw, .arrayKw, .asKw, .breakKw, .callableKw, .caseKw, .catchKw, .classKw, .cloneKw,
   .constKw, .continueKw, .declareKw, .defaultKw, .doKw, .echoKw, .elseKw, .elseifKw,
   .extendsKw, .finalKw, .finallyKw, .fnKw, .forKw, .foreachKw, .functionKw, .globalKw, .ifKw,
   .implementsKw, .instanceofKw, .insteadofKw, .interfaceKw, .namespaceKw, .newKw, .privateKw,
   .protectedKw, .publicKw, .returnKw, .staticKw, .switchKw, .throwKw, .traitKw, .tryKw,
   .useKw, .varKw, .whileKw, .yieldKw]

/-- The word in lower case. -/
def spelling : Keyword → String
  | .abstractKw => "abstract"
  | .arrayKw => "array"
  | .asKw => "as"
  | .breakKw => "break"
  | .callableKw => "callable"
  | .caseKw => "case"
  | .catchKw => "catch"
  | .classKw => "class"
  | .cloneKw => "clone"
  | .constKw => "const"
  | .continueKw => "continue"
  | .declareKw => "declare"
  | .defaultKw => "default"
  | .doKw => "do"
  | .echoKw => "echo"
  | .elseKw => "else"
  | .elseifKw => "elseif"
  | .extendsKw => "extends"
  | .finalKw => "final"
  | .finallyKw => "finally"
  | .fnKw => "fn"
  | .forKw => "for"
  | .foreachKw => "foreach"
  | .functionKw => "function"
  | .globalKw => "global"
  | .ifKw => "if"
  | .implementsKw => "implements"
  | .instanceofKw => "instanceof"
  | .insteadofKw => "insteadof"
  | .interfaceKw => "interface"
  | .namespaceKw => "namespace"
  | .newKw => "new"
  | .privateKw => "private"
  | .protectedKw => "protected"
  | .publicKw => "public"
  | .returnKw => "return"
  | .staticKw => "static"
  | .switchKw => "switch"
  | .throwKw => "throw"
  | .traitKw => "trait"
  | .tryKw => "try"
  | .useKw => "use"
  | .varKw => "var"
  | .whileKw => "while"
  | .yieldKw => "yield"

/-- The reported name: the capitalised word with the ending `Kw`. -/
def name (w : Keyword) : String :=
  w.spelling.capitalize ++ "Kw"

theorem mem_all (w : Keyword) : w ∈ all := by
  cases w <;> decide

end Keyword

end PhpImports
