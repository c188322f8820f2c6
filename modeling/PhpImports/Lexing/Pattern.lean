/-!
# PhpImports — regular patterns

The lexer's rules are regular patterns over characters. A pattern is matched one
character at a time: `step` gives the pattern that is left to match after a
character, and a pattern is accepted where nothing is left to match.

* `Pattern.Matches` — the texts of a pattern, as a relation.
* `Pattern.nullable`, `Pattern.step` — what matching computes with.
* `Pattern.nullable_iff` — `nullable` says whether the empty text is matched.
* `Pattern.matches_step_iff` — `step c` matches what may follow `c`.
-/

namespace PhpImports

/-- A regular pattern over characters. -/
inductive Pattern where
  /-- No text at all. -/
  | never
  /-- The empty text. -/
  | empty
  /-- One character of a class. -/
  | one (p : Char → Bool)
  /-- One pattern after another. -/
  | seq (q r : Pattern)
  /-- Either of two patterns. -/
  | alt (q r : Pattern)
  /-- A pattern any number of times. -/
  | star (q : Pattern)

namespace Pattern

/-- The texts that a pattern stands for. -/
inductive Matches : Pattern → List Char → Prop
  | empty : Matches empty []
  | one {p : Char → Bool} {c : Char} : p c = true → Matches (one p) [c]
  | seq {q r : Pattern} {s t : List Char} : Matches q s → Matches r t → Matches (seq q r) (s ++ t)
  | left {q r : Pattern} {s : List Char} : Matches q s → Matches (alt q r) s
  | right {q r : Pattern} {s : List Char} : Matches r s → Matches (alt q r) s
  | done {q : Pattern} : Matches (star q) []
  | again {q : Pattern} {s t : List Char} :
      Matches q s → Matches (star q) t → Matches (star q) (s ++ t)

/-! ## Ways to write patterns -/

/-- A pattern at least once. -/
def plus (q : Pattern) : Pattern :=
  seq q (star q)

/-- A pattern once or not at all. -/
def opt (q : Pattern) : Pattern :=
  alt q empty

/-- One given character. -/
def char (c : Char) : Pattern :=
  one (· == c)

/-- Characters of the given classes, one of each, in order. -/
def word (classes : List (Char → Bool)) : Pattern :=
  classes.foldr (fun p q => seq (one p) q) empty

/-- One given text. -/
def exactly (s : String) : Pattern :=
  word (s.toList.map fun l c => c == l)

/-! ## Matching character by character -/

/-- Whether the empty text is matched. -/
def nullable : Pattern → Bool
  | never | one _ => false
  | empty | star _ => true
  | seq q r => q.nullable && r.nullable
  | alt q r => q.nullable || r.nullable

/-- Two patterns in sequence, simplified where one of them is trivial. -/
def andThen : Pattern → Pattern → Pattern
  | never, _ => never
  | empty, r => r
  | q, r => seq q r

/-- A choice of two patterns, simplified where one of them matches nothing. -/
def orElse : Pattern → Pattern → Pattern
  | never, r => r
  | q, never => q
  | q, r => alt q r

/-- What is left to match after a character. -/
def step (c : Char) : Pattern → Pattern
  | never | empty => never
  | one p => if p c then empty else never
  | seq q r =>
    if q.nullable then ((q.step c).andThen r).orElse (r.step c) else (q.step c).andThen r
  | alt q r => (q.step c).orElse (r.step c)
  | star q => (q.step c).andThen (star q)

/-- Whether a pattern is the one that matches nothing. -/
def isNever : Pattern → Bool
  | never => true
  | _ => false

/-! ## Matching is right -/

theorem not_matches_never {s : List Char} : ¬ Matches never s := nofun

theorem matches_empty_iff {s : List Char} : Matches empty s ↔ s = [] :=
  ⟨fun | .empty => rfl, fun h => h ▸ .empty⟩

theorem matches_one_iff {p : Char → Bool} {s : List Char} :
    Matches (one p) s ↔ ∃ c, p c = true ∧ s = [c] :=
  ⟨fun | .one h => ⟨_, h, rfl⟩, fun ⟨_, h, hs⟩ => hs ▸ .one h⟩

theorem matches_seq_iff {q r : Pattern} {s : List Char} :
    Matches (seq q r) s ↔ ∃ t u, Matches q t ∧ Matches r u ∧ s = t ++ u :=
  ⟨fun | .seq ht hu => ⟨_, _, ht, hu, rfl⟩, fun ⟨_, _, ht, hu, hs⟩ => hs ▸ .seq ht hu⟩

theorem matches_alt_iff {q r : Pattern} {s : List Char} :
    Matches (alt q r) s ↔ Matches q s ∨ Matches r s :=
  ⟨fun | .left h => .inl h | .right h => .inr h, fun | .inl h => .left h | .inr h => .right h⟩

/-- A repetition that matches a text with a first character begins with a repeat that does. -/
theorem matches_star_cons_iff {q : Pattern} {c : Char} {s : List Char} :
    Matches (star q) (c :: s) ↔
      ∃ t u, Matches q (c :: t) ∧ Matches (star q) u ∧ s = t ++ u := by
  constructor
  · intro h
    generalize hr : star q = r at h
    generalize hw : c :: s = w at h
    induction h with
    | done => simp at hw
    | @again q' t u ht hu _ ih =>
      cases hr
      cases t with
      | nil => exact ih rfl hw
      | cons d t =>
        simp only [List.cons_append, List.cons.injEq] at hw
        obtain ⟨rfl, rfl⟩ := hw
        exact ⟨t, u, ht, hu, rfl⟩
    | _ => cases hr
  · rintro ⟨t, u, ht, hu, rfl⟩
    exact Matches.again (s := c :: t) ht hu

theorem nullable_iff {q : Pattern} : q.nullable = true ↔ Matches q [] := by
  induction q with
  | never => simp [nullable, not_matches_never]
  | empty => simp [nullable, matches_empty_iff]
  | one p => simp [nullable, matches_one_iff]
  | seq q r hq hr =>
    simp only [nullable, Bool.and_eq_true, hq, hr, matches_seq_iff]
    constructor
    · rintro ⟨h, k⟩
      exact ⟨[], [], h, k, rfl⟩
    · rintro ⟨t, u, ht, hu, hs⟩
      obtain ⟨rfl, rfl⟩ := List.append_eq_nil_iff.1 hs.symm
      exact ⟨ht, hu⟩
  | alt q r hq hr => simp [nullable, hq, hr, matches_alt_iff]
  | star q => exact ⟨fun _ => .done, fun _ => rfl⟩

theorem matches_andThen_iff {q r : Pattern} {s : List Char} :
    Matches (q.andThen r) s ↔ Matches (seq q r) s := by
  cases q <;> simp [andThen, matches_seq_iff, matches_empty_iff, not_matches_never]

theorem matches_orElse_iff {q r : Pattern} {s : List Char} :
    Matches (q.orElse r) s ↔ Matches (alt q r) s := by
  unfold orElse
  split <;> simp [matches_alt_iff, not_matches_never]

/-- The pattern that is left after a character matches exactly what may follow it. -/
theorem matches_step_iff {q : Pattern} {c : Char} {s : List Char} :
    Matches (q.step c) s ↔ Matches q (c :: s) := by
  induction q generalizing s with
  | never => simp [step, not_matches_never]
  | empty => simp [step, not_matches_never, matches_empty_iff]
  | one p =>
    simp only [step, matches_one_iff, List.cons.injEq]
    split
    · next h =>
      rw [matches_empty_iff]
      exact ⟨fun hs => ⟨c, h, rfl, hs⟩, fun ⟨_, _, _, hs⟩ => hs⟩
    · next h =>
      refine ⟨fun hm => absurd hm not_matches_never, ?_⟩
      rintro ⟨d, hd, rfl, _⟩
      exact absurd hd h
  | seq q r hq hr =>
    have first : Matches (seq q r) (c :: s) ↔
        Matches (seq (q.step c) r) s ∨ (Matches q [] ∧ Matches r (c :: s)) := by
      simp only [matches_seq_iff, hq]
      constructor
      · rintro ⟨t, u, ht, hu, hs⟩
        cases t with
        | nil => exact .inr ⟨ht, by simpa [hs] using hu⟩
        | cons d t =>
          simp only [List.cons_append, List.cons.injEq] at hs
          obtain ⟨rfl, rfl⟩ := hs
          exact .inl ⟨t, u, ht, hu, rfl⟩
      · rintro (⟨t, u, ht, hu, rfl⟩ | ⟨h, k⟩)
        · exact ⟨c :: t, u, ht, hu, rfl⟩
        · exact ⟨[], c :: s, h, k, rfl⟩
    rw [first, ← nullable_iff]
    by_cases h : q.nullable = true <;>
      simp [step, h, matches_orElse_iff, matches_alt_iff, matches_andThen_iff, hr]
  | alt q r hq hr => simp [step, matches_orElse_iff, matches_alt_iff, hq, hr]
  | star q hq => simp [step, matches_andThen_iff, matches_seq_iff, matches_star_cons_iff, hq]

end Pattern

end PhpImports
