import PhpImports.Token.Basic

/-!
# PhpImports — bracketed blocks

Parentheses and curly braces enclose blocks. Brackets of one shape are matched
by counting; brackets of other shapes are of no account, so a block may hold any
tokens at all.

* `Bracket` — the two shapes.
* `closeBlock` — cuts a list of tokens, taken after an opening bracket, at the
  bracket that closes it.
-/

namespace PhpImports

/-- The shapes of brackets that enclose blocks. -/
inductive Bracket where
  | parenthesis
  | curly
  deriving DecidableEq

namespace Bracket

/-- Kind of the opening bracket. -/
def opener : Bracket → Kind
  | parenthesis => .lParen
  | curly => .lBrace

/-- Kind of the closing bracket. -/
def closer : Bracket → Kind
  | parenthesis => .rParen
  | curly => .rBrace

theorem opener_ne_closer (b : Bracket) : b.opener ≠ b.closer := by
  cases b <;> decide

end Bracket

/-- Cuts tokens at the bracket that closes a block in which `depth` inner blocks are still
open: the tokens before that bracket, and the tokens after it. There is no cut in tokens that
never close the block. -/
def closeBlock (b : Bracket) : Nat → List Token → Option (List Token × List Token)
  | _, [] => none
  | depth, t :: ts =>
    if t.kind = b.opener then
      (closeBlock b (depth + 1) ts).map fun (body, rest) => (t :: body, rest)
    else if t.kind = b.closer then
      match depth with
      | 0 => some ([], ts)
      | depth + 1 => (closeBlock b depth ts).map fun (body, rest) => (t :: body, rest)
    else
      (closeBlock b depth ts).map fun (body, rest) => (t :: body, rest)

/-- The block that tokens begin with: the tokens between its brackets, and those after it. -/
def leadingBlock? (b : Bracket) : List Token → Option (List Token × List Token)
  | [] => none
  | t :: ts => if t.kind = b.opener then closeBlock b 0 ts else none

section Equations

variable {br : Bracket} {t : Token} (depth : Nat) (ts : List Token)

theorem closeBlock_of_opener (h : t.kind = br.opener) :
    closeBlock br depth (t :: ts) =
      (closeBlock br (depth + 1) ts).map fun (body, rest) => (t :: body, rest) := by
  rw [closeBlock.eq_def]
  exact if_pos h

theorem closeBlock_zero_of_closer (h : t.kind = br.closer) :
    closeBlock br 0 (t :: ts) = some ([], ts) := by
  rw [closeBlock.eq_def]
  simp [h, br.opener_ne_closer.symm]

theorem closeBlock_succ_of_closer (h : t.kind = br.closer) :
    closeBlock br (depth + 1) (t :: ts) =
      (closeBlock br depth ts).map fun (body, rest) => (t :: body, rest) := by
  rw [closeBlock.eq_def]
  simp [h, br.opener_ne_closer.symm]

theorem closeBlock_of_other (ho : t.kind ≠ br.opener) (hc : t.kind ≠ br.closer) :
    closeBlock br depth (t :: ts) =
      (closeBlock br depth ts).map fun (body, rest) => (t :: body, rest) := by
  rw [closeBlock.eq_def]
  simp [ho, hc]

end Equations

/-- The body, a closing bracket and the rest make up the tokens that were cut. -/
theorem closeBlock_eq_append {b : Bracket} {depth : Nat} {ts body rest : List Token}
    (h : closeBlock b depth ts = some (body, rest)) :
    ∃ t : Token, t.kind = b.closer ∧ ts = body ++ t :: rest := by
  induction ts generalizing depth body with
  | nil => simp [closeBlock] at h
  | cons t ts ih =>
    have step : ∀ d, (closeBlock b d ts).map (fun (body, rest) => (t :: body, rest))
        = some (body, rest) → ∃ u : Token, u.kind = b.closer ∧ t :: ts = body ++ u :: rest := by
      intro d hd
      obtain ⟨⟨body', rest'⟩, hc, he⟩ := Option.map_eq_some_iff.1 hd
      simp only [Prod.mk.injEq] at he
      obtain ⟨rfl, rfl⟩ := he
      obtain ⟨u, hu, rfl⟩ := ih hc
      exact ⟨u, hu, rfl⟩
    unfold closeBlock at h
    split at h
    · exact step _ h
    · split at h
      · next hclose =>
        cases depth with
        | zero =>
          simp only [Option.some.injEq, Prod.mk.injEq] at h
          obtain ⟨rfl, rfl⟩ := h
          exact ⟨t, hclose, rfl⟩
        | succ d => exact step _ h
      · exact step _ h

end PhpImports
