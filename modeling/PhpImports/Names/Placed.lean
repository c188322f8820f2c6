import PhpImports.Token.Basic

/-!
# PhpImports — tokens in their places

The scans that report a position work on the tokens that are not trivia, each with its
position in the whole sequence.

* `Placed` — a token with its position.
* `placed` — the tokens that are not trivia, in their places.
-/

namespace PhpImports

/-- A token with its position in a sequence. -/
structure Placed extends Token where
  index : Nat
  deriving DecidableEq

/-- The tokens that are not trivia, in their places; the list begins at position `start`. -/
def placedFrom (start : Nat) : List Token → List Placed
  | [] => []
  | t :: ts =>
    if t.isMeaningful then ⟨t, start⟩ :: placedFrom (start + 1) ts else placedFrom (start + 1) ts

/-- The tokens that are not trivia, in their places. -/
def placed (ts : List Token) : List Placed :=
  placedFrom 0 ts

/-- Without the places these are the tokens that are not trivia. -/
theorem map_toToken_placedFrom (start : Nat) (ts : List Token) :
    (placedFrom start ts).map Placed.toToken = meaningful ts := by
  induction ts generalizing start with
  | nil => rfl
  | cons t ts ih =>
    unfold placedFrom
    split
    · next h => rw [List.map_cons, ih, meaningful, meaningful, List.filter_cons_of_pos h]
    · next h => rw [ih, meaningful, meaningful, List.filter_cons_of_neg h]

/-- The places are those of the sequence. -/
theorem getElem?_of_mem_placedFrom {start : Nat} {ts : List Token} {p : Placed}
    (h : p ∈ placedFrom start ts) : start ≤ p.index ∧ ts[p.index - start]? = some p.toToken := by
  induction ts generalizing start with
  | nil => simp [placedFrom] at h
  | cons t ts ih =>
    have later : p ∈ placedFrom (start + 1) ts →
        start ≤ p.index ∧ (t :: ts)[p.index - start]? = some p.toToken := by
      intro hp
      obtain ⟨hle, hget⟩ := ih hp
      refine ⟨by omega, ?_⟩
      rw [show p.index - start = (p.index - (start + 1)) + 1 by omega]
      simpa using hget
    unfold placedFrom at h
    split at h
    · rcases List.mem_cons.1 h with rfl | h
      · exact ⟨Nat.le_refl _, by simp⟩
      · exact later h
    · exact later h

end PhpImports
