import PhpImports.Names.Reserved
import PhpImports.Token.Basic

/-!
# PhpImports — mentions of names

Whether an identifier names a class is decided by what stands before and after it,
trivia left out. A mention is an identifier with the kinds of these two neighbours.

* `mentions` — all mentions in a list of tokens without trivia.
* `Mention.isQualified`, `Mention.isInstantiated`, `Mention.isAccessed`,
  `Mention.isCaught`, `Mention.isHint` — the contexts.
* `namesWhere` — the names mentioned in a context, reserved ones left out.
-/

namespace PhpImports

/-- An identifier with the kinds of its neighbours. -/
structure Mention where
  before : Option Kind
  name : String
  after : Option Kind
  deriving DecidableEq

/-- The mentions in tokens without trivia that follow a token of kind `before`. -/
def mentionsAfter (before : Option Kind) : List Token → List Mention
  | [] => []
  | t :: ts =>
    if t.kind = .identifier then
      ⟨before, t.text, ts.head?.map Token.kind⟩ :: mentionsAfter (some t.kind) ts
    else mentionsAfter (some t.kind) ts

/-- The mentions in tokens without trivia, in order. -/
def mentions (ts : List Token) : List Mention :=
  mentionsAfter none ts

namespace Mention

/-- The name is the end of a qualified name. -/
def isQualified (m : Mention) : Bool :=
  m.before = some .nsSeparator

/-- The name stands between `new` and its arguments or the end of the statement. -/
def isInstantiated (m : Mention) : Bool :=
  m.before = some (.keyword .newKw) && (m.after = some .lParen || m.after = some .semicolon)

/-- The name stands bare before `::`. -/
def isAccessed (m : Mention) : Bool :=
  m.after = some .doubleColon && !m.isQualified

/-- The name stands bare before a variable or a `|`, as in a catch clause. -/
def isCaught (m : Mention) : Bool :=
  (m.after = some .variable || m.after = some .pipe) && !m.isQualified

/-- The name stands bare before a variable, as the type of a parameter. -/
def isHint (m : Mention) : Bool :=
  m.after = some .variable && !m.isQualified

end Mention

/-- The names that tokens without trivia mention in a context, in order and with
repetitions; reserved names are left out. -/
def namesWhere (context : Mention → Bool) (ts : List Token) : List String :=
  ((mentions ts).filter fun m => context m && !isReserved m.name).map Mention.name

/-- A name found in some context is not reserved. -/
theorem not_isReserved_of_mem_namesWhere {context : Mention → Bool} {ts : List Token} {n : String}
    (h : n ∈ namesWhere context ts) : isReserved n = false := by
  simp only [namesWhere, List.mem_map, List.mem_filter, Bool.and_eq_true, Bool.not_eq_true'] at h
  obtain ⟨m, ⟨_, _, hm⟩, rfl⟩ := h
  exact hm

end PhpImports
