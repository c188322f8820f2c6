import PhpImports.Lexing.Rule

/-!
# PhpImports — longest match

At a position of the code the lexer takes the longest text that some rule matches.
All rules are followed at once, a character at a time, until none of them can match
any more; the last acceptance seen on the way is the match.

* `Reading` — the match found and how far the rules were followed.
* `longestMatch` — reads from the beginning of a text.
* `one_le_longestMatch` — a match is never empty.
-/

namespace PhpImports

/-- What is left of a rule after a character. -/
def Rule.step (c : Char) (r : Rule) : Rule :=
  ⟨r.category, r.pattern.step c⟩

/-- What is left of the rules after a character, those that can no longer match left out. -/
def advance (c : Char) (live : List Rule) : List Rule :=
  (live.map (Rule.step c)).filter fun r => !r.pattern.isNever

/-- The category of the first rule with nothing left to match. -/
def accepted? (live : List Rule) : Option Category :=
  (live.find? (·.pattern.nullable)).map Rule.category

/-- What following the rules has shown. -/
structure Reading where
  /-- Category and length of the longest text that a rule matches. -/
  longest : Option (Category × Nat)
  /-- Number of characters after which some rule could still match. -/
  reach : Nat
  deriving DecidableEq

/-- Follows the rules `live`, which are what `n` characters have left of the table, over the
text that comes next; `longest` is the best match among the `n` characters. -/
def follow (live : List Rule) (n : Nat) (longest : Option (Category × Nat)) :
    List Char → Reading
  | [] => ⟨longest, n⟩
  | c :: cs =>
    let left := advance c live
    -- The character that ends the reading is not part of what was followed.
    if left.isEmpty then ⟨longest, n⟩
    else follow left (n + 1) ((accepted? left).map (·, n + 1) |>.or longest) cs

/-- Reads the longest text at the beginning of `cs` that a rule of the table matches. -/
def longestMatch (cs : List Char) : Reading :=
  follow rules 0 none cs

/-- Matches found on the way have a character at least. -/
theorem one_le_longest_follow (live : List Rule) (n : Nat) (longest : Option (Category × Nat))
    (cs : List Char) (h : ∀ m ∈ longest, 1 ≤ m.2) :
    ∀ m ∈ (follow live n longest cs).longest, 1 ≤ m.2 := by
  induction cs generalizing live n longest with
  | nil => simpa [follow] using h
  | cons c cs ih =>
    unfold follow
    dsimp only
    split
    · exact h
    · apply ih
      intro m hm
      cases ha : accepted? (advance c live) with
      | none =>
        rw [ha] at hm
        exact h m hm
      | some k =>
        rw [ha] at hm
        cases hm
        exact Nat.le_add_left 1 n

/-- The longest match is never empty. -/
theorem one_le_longestMatch {cs : List Char} {m : Category × Nat}
    (h : (longestMatch cs).longest = some m) : 1 ≤ m.2 :=
  one_le_longest_follow rules 0 none cs (by simp) m h

end PhpImports
