import PhpImports.Lexing.Rule

/-!
# PhpImports — the texts of the patterns

What the patterns of the table stand for, said without patterns: fixed texts letter by
letter, words and lines as runs of a class of characters, strings and comments by where
they end. Strings and comments end at the first mark that closes them, so that no text
of theirs begins another one.

## Results

* `Pattern.begins`, `Pattern.holds` — first characters and characters of a pattern.
* `matches_exactly_iff`, `matches_word_isEqv_iff` — fixed texts.
* `eq_nil_of_matches_quoted` — no string begins another one.
* `commentEnd?`, `matches_blockComment_iff` — where a comment ends.
-/

namespace PhpImports

namespace Pattern

-- ---------------------------------------------------------------------------
-- Characters of a pattern
-- ---------------------------------------------------------------------------

/-- Whether some text of a pattern may begin with `c`. -/
def begins (c : Char) : Pattern → Bool
  | never | empty => false
  | one p => p c
  | seq q r => q.begins c || (q.nullable && r.begins c)
  | alt q r => q.begins c || r.begins c
  | star q => q.begins c

/-- Whether some text of a pattern may have `c` in it. -/
def holds (c : Char) : Pattern → Bool
  | never | empty => false
  | one p => p c
  | seq q r => q.holds c || r.holds c
  | alt q r => q.holds c || r.holds c
  | star q => q.holds c

theorem begins_of_matches {q : Pattern} {c : Char} {w : List Char} (h : Matches q (c :: w)) :
    q.begins c = true := by
  generalize hv : c :: w = v at h
  induction h generalizing w with
  | empty => simp at hv
  | one hp =>
    cases hv
    exact hp
  | @seq q r s t hs ht ihs iht =>
    rw [begins, Bool.or_eq_true, Bool.and_eq_true]
    cases s with
    | nil => exact .inr ⟨nullable_iff.2 hs, iht hv⟩
    | cons d s =>
      rw [List.cons_append, List.cons.injEq] at hv
      exact .inl (ihs (by rw [hv.1]))
  | left _ ih =>
    rw [begins, ih hv]
    rfl
  | right _ ih =>
    rw [begins, ih hv]
    exact Bool.or_true _
  | done => simp at hv
  | @again q s t hs _ ihs iht =>
    cases s with
    | nil => exact iht hv
    | cons d s =>
      rw [List.cons_append, List.cons.injEq] at hv
      exact ihs (by rw [hv.1])

theorem holds_of_matches {q : Pattern} {c : Char} {w : List Char} (h : Matches q w)
    (hc : c ∈ w) : q.holds c = true := by
  induction h with
  | empty => simp at hc
  | one hp =>
    rw [List.mem_singleton.1 hc]
    exact hp
  | seq _ _ ihs iht =>
    rw [holds, Bool.or_eq_true]
    exact (List.mem_append.1 hc).imp ihs iht
  | left _ ih =>
    rw [holds, ih hc]
    rfl
  | right _ ih =>
    rw [holds, ih hc]
    exact Bool.or_true _
  | done => simp at hc
  | again _ _ ihs iht => exact (List.mem_append.1 hc).elim ihs iht

-- ---------------------------------------------------------------------------
-- Fixed texts
-- ---------------------------------------------------------------------------

theorem matches_one_seq_iff {p : Char → Bool} {r : Pattern} {w : List Char} :
    Matches (seq (one p) r) w ↔ ∃ c v, w = c :: v ∧ p c = true ∧ Matches r v := by
  rw [matches_seq_iff]
  constructor
  · rintro ⟨t, u, ht, hu, rfl⟩
    obtain ⟨c, hc, rfl⟩ := matches_one_iff.1 ht
    exact ⟨c, u, rfl, hc, hu⟩
  · rintro ⟨c, v, rfl, hc, hv⟩
    exact ⟨[c], v, .one hc, hv, rfl⟩

/-- A word whose letters are given by a relation. -/
theorem matches_word_isEqv_iff {R : Char → Char → Bool} {s w : List Char} :
    Matches (word (s.map fun l c => R c l)) w ↔ w.isEqv s R = true := by
  induction s generalizing w with
  | nil =>
    show Matches empty w ↔ _
    rw [matches_empty_iff]
    cases w <;> simp
  | cons l s ih =>
    show Matches (seq (one fun c => R c l) (word (s.map fun l c => R c l))) w ↔ _
    rw [matches_one_seq_iff]
    cases w with
    | nil => simp
    | cons c w =>
      rw [List.isEqv_cons_cons, Bool.and_eq_true, ← ih]
      constructor
      · rintro ⟨d, v, hdv, hd, hv⟩
        cases hdv
        exact ⟨hd, hv⟩
      · rintro ⟨hc, hw⟩
        exact ⟨c, w, rfl, hc, hw⟩

theorem matches_exactly_iff {s : String} {w : List Char} :
    Matches (exactly s) w ↔ w = s.toList := by
  rw [exactly, matches_word_isEqv_iff (R := fun c l => c == l)]
  simp

-- ---------------------------------------------------------------------------
-- Runs of characters
-- ---------------------------------------------------------------------------

theorem matches_star_one_iff {p : Char → Bool} {w : List Char} :
    Matches (star (one p)) w ↔ ∀ c ∈ w, p c = true := by
  induction w with
  | nil => simpa using Matches.done
  | cons c w ih =>
    rw [matches_star_cons_iff]
    constructor
    · rintro ⟨t, u, ht, hu, rfl⟩
      obtain ⟨d, hd, hcd⟩ := matches_one_iff.1 ht
      rw [List.cons.injEq] at hcd
      obtain ⟨rfl, rfl⟩ := hcd
      rw [List.nil_append, List.forall_mem_cons]
      exact ⟨hd, ih.1 hu⟩
    · intro h
      rw [List.forall_mem_cons] at h
      exact ⟨[], w, .one h.1, ih.2 h.2, rfl⟩

theorem matches_plus_one_iff {p : Char → Bool} {c : Char} {w : List Char} :
    Matches (plus (one p)) (c :: w) ↔ p c = true ∧ ∀ d ∈ w, p d = true := by
  rw [plus, matches_one_seq_iff]
  constructor
  · rintro ⟨d, v, hdv, hd, hv⟩
    cases hdv
    exact ⟨hd, matches_star_one_iff.1 hv⟩
  · rintro ⟨hc, hw⟩
    exact ⟨c, w, rfl, hc, matches_star_one_iff.2 hw⟩

theorem matches_name_iff {c : Char} {w : List Char} :
    Matches name (c :: w) ↔ isWordStart c = true ∧ ∀ d ∈ w, isWordChar d = true := by
  rw [name, matches_one_seq_iff]
  constructor
  · rintro ⟨d, v, hdv, hd, hv⟩
    cases hdv
    exact ⟨hd, matches_star_one_iff.1 hv⟩
  · rintro ⟨hc, hw⟩
    exact ⟨c, w, rfl, hc, matches_star_one_iff.2 hw⟩

/-- A comment to the end of the line goes on over every character but a line break. -/
theorem matches_lineComment_iff {s : String} {w : List Char} :
    Matches (seq (exactly s) restOfLine) w ↔
      ∃ v, w = s.toList ++ v ∧ ∀ c ∈ v, c ≠ '\n' := by
  rw [matches_seq_iff]
  constructor
  · rintro ⟨t, u, ht, hu, rfl⟩
    rw [matches_exactly_iff] at ht
    subst ht
    refine ⟨u, rfl, ?_⟩
    intro c hc
    simpa using matches_star_one_iff.1 hu c hc
  · rintro ⟨v, rfl, hv⟩
    refine ⟨s.toList, v, matches_exactly_iff.2 rfl, ?_, rfl⟩
    apply matches_star_one_iff.2
    intro c hc
    simpa using hv c hc

-- ---------------------------------------------------------------------------
-- Texts that are closed
-- ---------------------------------------------------------------------------

/-- A repetition before a rest: the rest at once, or a repeat first. -/
theorem matches_loop_cons_iff {q r : Pattern} {c : Char} {w : List Char} :
    Matches (seq (star q) r) (c :: w) ↔ Matches r (c :: w) ∨
      ∃ t u, w = t ++ u ∧ Matches q (c :: t) ∧ Matches (seq (star q) r) u := by
  rw [matches_seq_iff]
  constructor
  · rintro ⟨t, u, ht, hu, heq⟩
    cases t with
    | nil =>
      left
      rw [heq]
      exact hu
    | cons d t =>
      rw [List.cons_append, List.cons.injEq] at heq
      obtain ⟨rfl, rfl⟩ := heq
      obtain ⟨t₁, t₂, h₁, h₂, rfl⟩ := matches_star_cons_iff.1 ht
      exact .inr ⟨t₁, t₂ ++ u, List.append_assoc _ _ _, h₁, .seq h₂ hu⟩
  · rintro (h | ⟨t, u, rfl, ht, hu⟩)
    · exact ⟨[], c :: w, .done, h, rfl⟩
    · obtain ⟨u₁, u₂, h₁, h₂, rfl⟩ := matches_seq_iff.1 hu
      exact ⟨c :: t ++ u₁, u₂, .again ht h₁, h₂, by simp⟩

theorem matches_loop_nil_iff {q r : Pattern} :
    Matches (seq (star q) r) [] ↔ Matches r [] := by
  rw [matches_seq_iff]
  constructor
  · rintro ⟨t, u, -, hu, heq⟩
    obtain ⟨rfl, rfl⟩ := List.append_eq_nil_iff.1 heq.symm
    exact hu
  · intro h
    exact ⟨[], [], .done, h, rfl⟩

theorem matches_char_iff {d : Char} {w : List Char} : Matches (char d) w ↔ w = [d] := by
  rw [char, matches_one_iff]
  simp

-- ---------------------------------------------------------------------------
-- Strings
-- ---------------------------------------------------------------------------

/-- One unit of a string: a character that closes nothing, or a backslash with the next one. -/
def quotedUnit (mark : Char) : Pattern :=
  alt (one fun c => c != mark && c != '\\') (seq (char '\\') (one fun _ => true))

/-- What follows the opening mark of a string. -/
def quotedRest (mark : Char) : Pattern :=
  seq (star (quotedUnit mark)) (char mark)

theorem matches_quoted_iff {mark : Char} {w : List Char} :
    Matches (quoted mark) w ↔ ∃ v, w = mark :: v ∧ Matches (quotedRest mark) v := by
  show Matches (seq (one (· == mark)) (quotedRest mark)) w ↔ _
  rw [matches_one_seq_iff]
  constructor
  · rintro ⟨c, v, rfl, hc, hv⟩
    rw [beq_iff_eq] at hc
    exact ⟨v, by rw [hc], hv⟩
  · rintro ⟨v, rfl, hv⟩
    exact ⟨mark, v, rfl, beq_self_eq_true mark, hv⟩

theorem matches_quotedUnit_iff {mark c : Char} {w : List Char} :
    Matches (quotedUnit mark) (c :: w) ↔
      (c ≠ mark ∧ c ≠ '\\' ∧ w = []) ∨ (c = '\\' ∧ ∃ d, w = [d]) := by
  rw [quotedUnit, matches_alt_iff, matches_one_iff, char, matches_one_seq_iff]
  constructor
  · rintro (⟨d, hd, heq⟩ | ⟨d, v, heq, hd, hv⟩)
    · cases heq
      simp only [Bool.and_eq_true, bne_iff_ne] at hd
      exact .inl ⟨hd.1, hd.2, rfl⟩
    · cases heq
      obtain ⟨e, -, rfl⟩ := matches_one_iff.1 hv
      exact .inr ⟨by simpa using hd, e, rfl⟩
  · rintro (⟨hmark, hslash, rfl⟩ | ⟨rfl, d, rfl⟩)
    · exact .inl ⟨c, by simp [hmark, hslash], rfl⟩
    · exact .inr ⟨_, _, rfl, by simp, .one rfl⟩

theorem eq_nil_of_matches_quotedRest {mark : Char} (hmark : mark ≠ '\\') {v e : List Char}
    (h : Matches (quotedRest mark) v) (h' : Matches (quotedRest mark) (v ++ e)) : e = [] := by
  generalize hn : v.length = n
  induction n using Nat.strongRecOn generalizing v with
  | ind n ih =>
    cases v with
    | nil =>
      rw [quotedRest, matches_loop_nil_iff, matches_char_iff] at h
      simp at h
    | cons c v =>
      rw [List.cons_append, quotedRest, matches_loop_cons_iff] at h'
      rw [quotedRest, matches_loop_cons_iff] at h
      rcases h with h | ⟨t, u, rfl, ht, hu⟩
      · -- the mark closes the string here
        rw [matches_char_iff, List.cons.injEq] at h
        obtain ⟨rfl, rfl⟩ := h
        rcases h' with h' | ⟨t', u', -, ht', -⟩
        · rw [matches_char_iff, List.cons.injEq] at h'
          exact h'.2
        · rw [matches_quotedUnit_iff] at ht'
          rcases ht' with ⟨hne, -⟩ | ⟨heq, -⟩
          · exact absurd rfl hne
          · exact absurd heq hmark
      · -- a unit of the string; both texts go on with the same one
        rw [matches_quotedUnit_iff] at ht
        have hlt : u.length < n := by
          rw [← hn, List.length_cons, List.length_append]
          omega
        rcases h' with h' | ⟨t', u', heq, ht', hu'⟩
        · rw [matches_char_iff, List.cons.injEq] at h'
          obtain ⟨rfl, -⟩ := h'
          rcases ht with ⟨hne, -⟩ | ⟨heq, -⟩
          · exact absurd rfl hne
          · exact absurd heq hmark
        · rw [matches_quotedUnit_iff] at ht'
          have hsame : t' = t := by
            rcases ht with ⟨-, hne, rfl⟩ | ⟨rfl, d, rfl⟩
            · rcases ht' with ⟨-, -, rfl⟩ | ⟨hc, -⟩
              · rfl
              · exact absurd hc hne
            · rcases ht' with ⟨-, hne, -⟩ | ⟨-, d', rfl⟩
              · exact absurd rfl hne
              · rw [List.append_assoc, List.singleton_append, List.singleton_append,
                  List.cons.injEq] at heq
                rw [heq.1]
          rw [hsame, List.append_assoc] at heq
          rw [← List.append_cancel_left heq] at hu'
          exact ih _ hlt hu hu' rfl

/-- No string begins another one. -/
theorem eq_nil_of_matches_quoted {mark : Char} (hmark : mark ≠ '\\') {w e : List Char}
    (h : Matches (quoted mark) w) (h' : Matches (quoted mark) (w ++ e)) : e = [] := by
  obtain ⟨v, rfl, hv⟩ := matches_quoted_iff.1 h
  obtain ⟨v', heq, hv'⟩ := matches_quoted_iff.1 h'
  rw [List.cons_append, List.cons.injEq] at heq
  rw [← heq.2] at hv'
  exact eq_nil_of_matches_quotedRest hmark hv hv'

-- ---------------------------------------------------------------------------
-- Comments
-- ---------------------------------------------------------------------------

/-- Length of a text through its first `*/`. -/
def commentEnd? : List Char → Option Nat
  | [] => none
  | c :: cs => if c = '*' ∧ cs.head? = some '/' then some 2 else (commentEnd? cs).map (· + 1)

/-- One unit of a comment: a character other than `*`, or a run of `*` that closes nothing. -/
def commentUnit : Pattern :=
  alt (one (· != '*')) (seq (plus (char '*')) (one fun c => c != '*' && c != '/'))

/-- What follows the opening of a comment. -/
def commentRest : Pattern :=
  seq (star commentUnit) (seq (plus (char '*')) (char '/'))

/-- A run of `*`, perhaps empty, before a rest. -/
def stars (r : Pattern) : Pattern :=
  seq (star (char '*')) r

theorem matches_stars_cons_iff {r : Pattern} {c : Char} {w : List Char} :
    Matches (stars r) (c :: w) ↔ Matches r (c :: w) ∨ (c = '*' ∧ Matches (stars r) w) := by
  rw [stars, matches_loop_cons_iff]
  constructor
  · rintro (h | ⟨t, u, rfl, ht, hu⟩)
    · exact .inl h
    · rw [matches_char_iff, List.cons.injEq] at ht
      obtain ⟨rfl, rfl⟩ := ht
      exact .inr ⟨rfl, hu⟩
  · rintro (h | ⟨rfl, h⟩)
    · exact .inl h
    · exact .inr ⟨[], w, rfl, matches_char_iff.2 rfl, h⟩

/-- At least one `*` before a rest. -/
theorem matches_plus_star_cons_iff {r : Pattern} {c : Char} {w : List Char} :
    Matches (seq (plus (char '*')) r) (c :: w) ↔ c = '*' ∧ Matches (stars r) w := by
  rw [matches_seq_iff]
  constructor
  · rintro ⟨t, u, ht, hu, heq⟩
    rw [plus, char, matches_one_seq_iff] at ht
    obtain ⟨d, v, rfl, hd, hv⟩ := ht
    rw [List.cons_append, List.cons.injEq] at heq
    obtain ⟨rfl, rfl⟩ := heq
    exact ⟨by simpa using hd, .seq hv hu⟩
  · rintro ⟨rfl, h⟩
    obtain ⟨t, u, ht, hu, rfl⟩ := matches_seq_iff.1 h
    exact ⟨'*' :: t, u, .seq (s := ['*']) (matches_char_iff.2 rfl) ht, hu, rfl⟩

theorem not_matches_commentRest_nil : ¬ Matches commentRest [] := by
  rw [← nullable_iff]
  decide

theorem matches_commentUnit_iff {c : Char} {w : List Char} :
    Matches commentUnit (c :: w) ↔ (c ≠ '*' ∧ w = []) ∨
      (c = '*' ∧ Matches (stars (one fun c => c != '*' && c != '/')) w) := by
  rw [commentUnit, matches_alt_iff, matches_plus_star_cons_iff, matches_one_iff]
  constructor
  · rintro (⟨d, hd, heq⟩ | h)
    · cases heq
      exact .inl ⟨by simpa using hd, rfl⟩
    · exact .inr h
  · rintro (⟨hc, rfl⟩ | h)
    · exact .inl ⟨c, by simpa using hc, rfl⟩
    · exact .inr h

theorem matches_commentRest_cons_of_ne {c : Char} {w : List Char} (hc : c ≠ '*') :
    Matches commentRest (c :: w) ↔ Matches commentRest w := by
  rw [commentRest, matches_loop_cons_iff, matches_plus_star_cons_iff]
  constructor
  · rintro (⟨h, -⟩ | ⟨t, u, rfl, ht, hu⟩)
    · exact absurd h hc
    · rw [matches_commentUnit_iff] at ht
      rcases ht with ⟨-, rfl⟩ | ⟨h, -⟩
      · exact hu
      · exact absurd h hc
  · intro h
    exact .inr ⟨[], w, rfl, matches_commentUnit_iff.2 (.inl ⟨hc, rfl⟩), h⟩

/-- What may follow a `*` inside a comment. -/
theorem matches_commentRest_star_iff {w : List Char} :
    Matches commentRest ('*' :: w) ↔ Matches (stars (char '/')) w ∨
      ∃ t u, w = t ++ u ∧ Matches (stars (one fun c => c != '*' && c != '/')) t ∧
        Matches commentRest u := by
  rw [commentRest, matches_loop_cons_iff, matches_plus_star_cons_iff]
  constructor
  · rintro (⟨-, h⟩ | ⟨t, u, rfl, ht, hu⟩)
    · exact .inl h
    · rw [matches_commentUnit_iff] at ht
      rcases ht with ⟨h, -⟩ | ⟨-, ht⟩
      · exact absurd rfl h
      · exact .inr ⟨t, u, rfl, ht, hu⟩
  · rintro (h | ⟨t, u, rfl, ht, hu⟩)
    · exact .inl ⟨rfl, h⟩
    · exact .inr ⟨t, u, rfl, matches_commentUnit_iff.2 (.inr ⟨rfl, ht⟩), hu⟩

/-- After a `*` the comment is closed by `/`; another `*` changes nothing, and any other
character leads back into the comment. -/
theorem matches_commentRest_star_cons_iff {d : Char} {w : List Char} :
    Matches commentRest ('*' :: d :: w) ↔
      if d = '/' then w = [] else if d = '*' then Matches commentRest ('*' :: w)
      else Matches commentRest w := by
  rw [matches_commentRest_star_iff, matches_stars_cons_iff, matches_char_iff]
  by_cases hslash : d = '/'
  · subst hslash
    rw [if_pos rfl]
    constructor
    · rintro ((h | ⟨h, -⟩) | ⟨t, u, heq, ht, -⟩)
      · simpa using h
      · exact absurd h (by decide)
      · -- a run of `*` that closes nothing does not begin with `/`
        cases t with
        | nil => exact absurd (nullable_iff.2 ht) (by decide)
        | cons e t =>
          rw [List.cons_append, List.cons.injEq] at heq
          rw [← heq.1] at ht
          exact absurd (begins_of_matches ht) (by decide)
    · rintro rfl
      exact .inl (.inl rfl)
  · rw [if_neg hslash]
    by_cases hstar : d = '*'
    · subst hstar
      rw [if_pos rfl, matches_commentRest_star_iff]
      constructor
      · rintro ((h | ⟨-, h⟩) | ⟨t, u, heq, ht, hu⟩)
        · simp at h
        · exact .inl h
        · cases t with
          | nil => exact absurd (nullable_iff.2 ht) (by decide)
          | cons e t =>
            rw [List.cons_append, List.cons.injEq] at heq
            obtain ⟨rfl, rfl⟩ := heq
            rw [matches_stars_cons_iff] at ht
            rcases ht with ht | ⟨-, ht⟩
            · exact absurd (begins_of_matches ht) (by decide)
            · exact .inr ⟨t, u, rfl, ht, hu⟩
      · rintro (h | ⟨t, u, rfl, ht, hu⟩)
        · exact .inl (.inr ⟨rfl, h⟩)
        · exact .inr ⟨'*' :: t, u, rfl, matches_stars_cons_iff.2 (.inr ⟨rfl, ht⟩), hu⟩
    · rw [if_neg hstar]
      constructor
      · rintro ((h | ⟨h, -⟩) | ⟨t, u, heq, ht, hu⟩)
        · rw [List.cons.injEq] at h
          exact absurd h.1 hslash
        · exact absurd h hstar
        · cases t with
          | nil => exact absurd (nullable_iff.2 ht) (by decide)
          | cons e t =>
            rw [List.cons_append, List.cons.injEq] at heq
            obtain ⟨rfl, rfl⟩ := heq
            rw [matches_stars_cons_iff] at ht
            rcases ht with ht | ⟨h, -⟩
            · obtain ⟨e, -, heq⟩ := matches_one_iff.1 ht
              rw [List.cons.injEq] at heq
              rw [heq.2]
              exact hu
            · exact absurd h hstar
      · intro h
        refine .inr ⟨[d], w, rfl, matches_stars_cons_iff.2 (.inl (.one ?_)), h⟩
        simp [hstar, hslash]

/-- A comment goes through the first `*/` behind its opening. -/
theorem matches_commentRest_iff (w : List Char) :
    (Matches commentRest w ↔ commentEnd? w = some w.length) ∧
      (Matches commentRest ('*' :: w) ↔ commentEnd? ('*' :: w) = some (w.length + 1)) := by
  induction w with
  | nil =>
    constructor
    · simp [not_matches_commentRest_nil, commentEnd?]
    · rw [← matches_step_iff, ← nullable_iff]
      decide
  | cons d w ih =>
    have hstar : Matches commentRest ('*' :: d :: w) ↔
        commentEnd? ('*' :: d :: w) = some ((d :: w).length + 1) := by
      rw [matches_commentRest_star_cons_iff, commentEnd?]
      by_cases hslash : d = '/'
      · simp [hslash, List.length_eq_zero_iff]
      · have hopen : ¬ ('*' = '*' ∧ (d :: w).head? = some '/') := by simp [hslash]
        rw [if_neg hslash, if_neg hopen]
        by_cases hd : d = '*'
        · subst hd
          rw [if_pos rfl, ih.2]
          simp
        · rw [if_neg hd, ih.1, commentEnd?, if_neg (by simp [hd])]
          simp
    refine ⟨?_, hstar⟩
    by_cases hd : d = '*'
    · subst hd
      rw [ih.2]
      rfl
    · rw [matches_commentRest_cons_of_ne hd, ih.1, commentEnd?, if_neg (by simp [hd])]
      simp

theorem matches_blockComment_iff {w : List Char} :
    Matches blockComment w ↔
      ∃ v, w = '/' :: '*' :: v ∧ commentEnd? v = some v.length := by
  show Matches (seq (exactly "/*") commentRest) w ↔ _
  rw [matches_seq_iff]
  constructor
  · rintro ⟨t, u, ht, hu, rfl⟩
    rw [matches_exactly_iff] at ht
    subst ht
    exact ⟨u, rfl, (matches_commentRest_iff u).1.1 hu⟩
  · rintro ⟨v, rfl, hv⟩
    exact ⟨"/*".toList, v, matches_exactly_iff.2 rfl, (matches_commentRest_iff v).1.2 hv, rfl⟩

end Pattern

end PhpImports
