import PhpImports.Fix.Basic

/-!
# PhpImports — sessions

A session holds one fixer and one token sequence, and takes commands. Whether a command
succeeds or fails, the session goes on with what it has left of the fixer and the tokens.

* `Command` — what a session can be told to do.
* `Session.step` — carries out one command.
* `Session.run` — carries out commands one after another.
-/

namespace PhpImports

/-- A fixer at work on a token sequence. -/
structure Session where
  fixer : Fixer
  tokens : TokenSeq

/-- What a session can be told to do. -/
inductive Command where
  /-- Take a new configuration from options. -/
  | configure (options : Options)
  /-- Put in the missing imports. -/
  | fix
  /-- Take another token sequence. -/
  | load (tokens : TokenSeq)
  /-- Read the text of the token sequence anew. -/
  | relex
  /-- Put in one token. -/
  | insert (index : Nat) (token : Token)

namespace Session

/-- Carries out a command: the session after it, and the names of the imports it has put in or
the error it has met. -/
def step (s : Session) : Command → Session × Except ConfigError (List String)
  | .configure options =>
    let (result, fixer) := (Fixer.configure options).on s.fixer
    ({ s with fixer }, result.map fun _ => [])
  | .fix =>
    let (result, tokens) := s.fixer.fixInPlace.on s.tokens
    ({ s with tokens }, result)
  | .load tokens => ({ s with tokens }, .ok [])
  | .relex => ({ s with tokens := .ofSource s.tokens.source }, .ok [])
  | .insert i t => ({ s with tokens := s.tokens.insertAt i t }, .ok [])

/-- Carries out commands one after another: the session after them, and the result of each. -/
def run (s : Session) : List Command → Session × List (Except ConfigError (List String))
  | [] => (s, [])
  | c :: cs =>
    let (s, r) := s.step c
    let (s, rs) := s.run cs
    (s, r :: rs)

end Session

end PhpImports
