import PhpImports.Lexing.LongestMatch

/-!
# PhpImports — the longest match by what the rules match

Following all rules at once, a character at a time, finds the longest text that some
rule of the table matches, and of the rules that match it the first one names the
category. A reading that has come to its end does not depend on what comes later.

## Results

* `categoryOf?` — the category of a text: that of the first rule that matches it.
* `exists_preferred_rule` — fixed texts come first.
* `IsLongest` — a match that no longer one exceeds.
* `longest_eq_iff` — the reading finds the longest match.
* `longestMatch_congr` — a reading depends on the text that was followed only.
-/

namespace PhpImports

-- ---------------------------------------------------------------------------
-- Several characters
-- ---------------------------------------------------------------------------

/-- What is left of a pattern to match after several characters. -/
def Pattern.after (q : Pattern) (w : List Char) : Pattern :=
  w.foldl (fun q c => q.step c) q

theorem Pattern.after_append (q : Pattern) (w v : List Char) :
    q.after (w ++ v) = (q.after w).after v :=
  List.foldl_append

theorem Pattern.matches_after_iff {q : Pattern} {w s : List Char} :
    Matches (q.after w) s ↔ Matches q (w ++ s) := by
  induction w generalizing q with
  | nil => rfl
  | cons c w ih =>
    show Matches ((q.step c).after w) s ↔ _
    rw [ih, matches_step_iff]
    rfl

theorem Pattern.isNever_iff {q : Pattern} : q.isNever = true ↔ q = never := by
  cases q <;> simp [isNever]

/-- Of a pattern that matches a text, something is left after each beginning of the text. -/
theorem Pattern.isNever_after_eq_false {q : Pattern} {w s : List Char} (h : Matches q (w ++ s)) :
    (q.after w).isNever = false := by
  cases hnever : (q.after w).isNever with
  | false => rfl
  | true =>
    have hafter : (q.after w).Matches s := matches_after_iff.2 h
    rw [isNever_iff.1 hnever] at hafter
    exact absurd hafter not_matches_never

/-- What is left of the rules of a table after several characters. -/
def alive (table : List Rule) (w : List Char) : List Rule :=
  (table.map fun r => (⟨r.category, r.pattern.after w⟩ : Rule)).filter (!·.pattern.isNever)

theorem advance_alive (table : List Rule) (w : List Char) (c : Char) :
    advance c (alive table w) = alive table (w ++ [c]) := by
  unfold advance alive
  rw [List.filter_map, List.filter_map, List.filter_map, List.map_map, List.filter_filter,
    List.filter_map]
  have hmap : (Rule.step c ∘ fun r : Rule => ⟨r.category, r.pattern.after w⟩) =
      fun r : Rule => ⟨r.category, r.pattern.after (w ++ [c])⟩ := by
    funext r
    show (⟨r.category, (r.pattern.after w).step c⟩ : Rule) = _
    rw [Pattern.after_append]
    rfl
  rw [hmap]
  congr 1
  apply List.filter_congr
  intro r _
  -- a rule that could not match before cannot match after one more character
  show (!((r.pattern.after w).step c).isNever && !(r.pattern.after w).isNever) =
    !(r.pattern.after (w ++ [c])).isNever
  rw [Pattern.after_append]
  show _ = !((r.pattern.after w).step c).isNever
  cases hnever : (r.pattern.after w).isNever with
  | false => rw [Bool.not_false, Bool.and_true]
  | true =>
    rw [Pattern.isNever_iff.1 hnever]
    rfl

theorem advance_eq_alive (table : List Rule) (c : Char) : advance c table = alive table [c] := rfl

-- ---------------------------------------------------------------------------
-- The category of a text
-- ---------------------------------------------------------------------------

/-- The category of a text: that of the first rule that matches it. -/
def categoryOf? (w : List Char) : Option Category :=
  (rules.find? fun r => (r.pattern.after w).nullable).map Rule.category

theorem nullable_after_iff {q : Pattern} {w : List Char} :
    (q.after w).nullable = true ↔ q.Matches w := by
  rw [Pattern.nullable_iff, Pattern.matches_after_iff, List.append_nil]

theorem accepted?_alive (w : List Char) : accepted? (alive rules w) = categoryOf? w := by
  unfold accepted? alive categoryOf?
  rw [List.find?_filter, List.find?_map, Option.map_map]
  have hcond : (fun r : Rule => ((!r.pattern.isNever) = true ∧ r.pattern.nullable = true : Bool)) ∘
      (fun r : Rule => (⟨r.category, r.pattern.after w⟩ : Rule)) =
        fun r => (r.pattern.after w).nullable := by
    funext r
    cases hnull : (r.pattern.after w).nullable with
    | false => simp [hnull]
    | true =>
      have hnever : (r.pattern.after w).isNever = false := by
        cases hn : (r.pattern.after w).isNever with
        | false => rfl
        | true =>
          rw [Pattern.isNever_iff.1 hn] at hnull
          exact absurd hnull (by decide)
      simp [hnull, hnever]
  rw [hcond]
  rfl

theorem categoryOf?_eq_none_iff {w : List Char} :
    categoryOf? w = none ↔ ∀ r ∈ rules, ¬ r.pattern.Matches w := by
  simp [categoryOf?, nullable_after_iff]

/-- A rule for fixed texts names the category of a text if one of them matches it. -/
theorem exists_preferred_rule {w : List Char} {k : Category} (h : categoryOf? w = some k) :
    ∃ rule ∈ rules, rule.category = k ∧ rule.pattern.Matches w ∧
      ((∃ r ∈ literalRules, r.pattern.Matches w) → rule ∈ literalRules) := by
  obtain ⟨rule, hfind, hk⟩ := Option.map_eq_some_iff.1 h
  have hnull : (rule.pattern.after w).nullable = true := by simpa using List.find?_some hfind
  refine ⟨rule, List.mem_of_find?_eq_some hfind, hk, nullable_after_iff.1 hnull, ?_⟩
  rintro ⟨r, hr, hmatches⟩
  rw [rules, List.find?_append] at hfind
  cases hliteral : literalRules.find? fun r => (r.pattern.after w).nullable with
  | none =>
    have hnone := List.find?_eq_none.1 hliteral r hr
    exact absurd (nullable_after_iff.2 hmatches) hnone
  | some l =>
    rw [hliteral, Option.some_or, Option.some.injEq] at hfind
    rw [← hfind]
    exact List.mem_of_find?_eq_some hliteral

theorem exists_rule_of_categoryOf? {w : List Char} {k : Category} (h : categoryOf? w = some k) :
    ∃ r ∈ rules, r.category = k ∧ r.pattern.Matches w := by
  obtain ⟨r, hr, hk, hmatches, -⟩ := exists_preferred_rule h
  exact ⟨r, hr, hk, hmatches⟩

theorem categoryOf?_ne_none {w : List Char} {r : Rule} (hr : r ∈ rules)
    (h : r.pattern.Matches w) : categoryOf? w ≠ none := by
  rw [ne_eq, categoryOf?_eq_none_iff]
  intro hnone
  exact hnone r hr h

-- ---------------------------------------------------------------------------
-- The longest match
-- ---------------------------------------------------------------------------

/-- The longest prefix of `cs` with a category, empty ones left out. -/
def IsLongest (cs : List Char) : Option (Category × Nat) → Prop
  | none => ∀ m, 1 ≤ m → m ≤ cs.length → categoryOf? (cs.take m) = none
  | some (k, n) => 1 ≤ n ∧ n ≤ cs.length ∧ categoryOf? (cs.take n) = some k ∧
      ∀ m, n < m → m ≤ cs.length → categoryOf? (cs.take m) = none

theorem IsLongest.unique {cs : List Char} {o o' : Option (Category × Nat)}
    (h : IsLongest cs o) (h' : IsLongest cs o') : o = o' := by
  match o, o' with
  | none, none => rfl
  | none, some (k, n) =>
    obtain ⟨hpos, hle, hk, -⟩ := h'
    rw [h n hpos hle] at hk
    simp at hk
  | some (k, n), none =>
    obtain ⟨hpos, hle, hk, -⟩ := h
    rw [h' n hpos hle] at hk
    simp at hk
  | some (k, n), some (k', n') =>
    obtain ⟨-, hle, hk, hlonger⟩ := h
    obtain ⟨-, hle', hk', hlonger'⟩ := h'
    -- neither of the two can be the longer one
    have hnn : n = n' := by
      rcases Nat.lt_trichotomy n n' with hlt | heq | hlt
      · rw [hlonger n' hlt hle'] at hk'
        simp at hk'
      · exact heq
      · rw [hlonger' n hlt hle] at hk
        simp at hk
    subst hnn
    rw [hk, Option.some.injEq] at hk'
    rw [hk']

/-- A character over which no match goes on ends the longest match. -/
theorem IsLongest.stop {w : List Char} {o : Option (Category × Nat)} (h : IsLongest w o)
    {c : Char} (cs : List Char)
    (hstop : ∀ r ∈ rules, ∀ u, ¬ r.pattern.Matches (w ++ c :: u)) :
    IsLongest (w ++ c :: cs) o := by
  have hnone : ∀ m, w.length < m → categoryOf? ((w ++ c :: cs).take m) = none := by
    intro m hlt
    obtain ⟨n, rfl⟩ : ∃ n, m = w.length + (n + 1) := ⟨m - w.length - 1, by omega⟩
    rw [List.take_length_add_append, List.take_succ_cons, categoryOf?_eq_none_iff]
    intro r hr
    exact hstop r hr _
  have hsame : ∀ m, m ≤ w.length → (w ++ c :: cs).take m = w.take m := by
    intro m hle
    exact List.take_append_of_le_length hle
  match o with
  | none =>
    intro m hpos hle
    by_cases hm : m ≤ w.length
    · rw [hsame m hm]
      exact h m hpos hm
    · exact hnone m (by omega)
  | some (k, n) =>
    obtain ⟨hpos, hle, hk, hlonger⟩ := h
    refine ⟨hpos, ?_, by rw [hsame n hle]; exact hk, ?_⟩
    · rw [List.length_append]
      omega
    · intro m hlt hm
      by_cases hmw : m ≤ w.length
      · rw [hsame m hmw]
        exact hlonger m hlt hmw
      · exact hnone m (by omega)

/-- No rule matches over a character that leaves none of them alive. -/
theorem not_matches_of_alive_eq_nil {w : List Char} {c : Char}
    (hdead : alive rules (w ++ [c]) = []) {r : Rule} (hr : r ∈ rules) (u : List Char) :
    ¬ r.pattern.Matches (w ++ c :: u) := by
  intro hmatches
  have hnever : (r.pattern.after (w ++ [c])).isNever = true := by
    have hmem := List.filter_eq_nil_iff.1 hdead _ (List.mem_map_of_mem hr)
    simpa using hmem
  rw [List.append_cons, ← Pattern.matches_after_iff, Pattern.isNever_iff.1 hnever] at hmatches
  exact Pattern.not_matches_never hmatches

/-- One more character. -/
theorem IsLongest.concat {w : List Char} {o : Option (Category × Nat)} (h : IsLongest w o)
    (c : Char) :
    IsLongest (w ++ [c]) ((categoryOf? (w ++ [c])).map (·, w.length + 1) |>.or o) := by
  have hlength : (w ++ [c]).length = w.length + 1 := by simp
  have hsame : ∀ m, m ≤ w.length → (w ++ [c]).take m = w.take m := by
    intro m hle
    exact List.take_append_of_le_length hle
  have hall : (w ++ [c]).take (w.length + 1) = w ++ [c] :=
    List.take_of_length_le (by omega)
  cases hcat : categoryOf? (w ++ [c]) with
  | some k =>
    refine ⟨by omega, by omega, by rw [hall, hcat], ?_⟩
    intro m hlt hle
    omega
  | none =>
    rw [Option.map_none, Option.none_or]
    match o with
    | none =>
      intro m hpos hle
      by_cases hm : m ≤ w.length
      · rw [hsame m hm]
        exact h m hpos hm
      · rw [show m = w.length + 1 by omega, hall, hcat]
    | some (k, n) =>
      obtain ⟨hpos, hle, hk, hlonger⟩ := h
      refine ⟨hpos, by omega, by rw [hsame n hle]; exact hk, ?_⟩
      intro m hlt hm
      by_cases hmw : m ≤ w.length
      · rw [hsame m hmw]
        exact hlonger m hlt hmw
      · rw [show m = w.length + 1 by omega, hall, hcat]

/-- The rules `live` are what the characters `w` have left of the table. -/
theorem isLongest_follow {live : List Rule} {w : List Char} {o : Option (Category × Nat)}
    (cs : List Char) (hlive : ∀ c, advance c live = alive rules (w ++ [c])) (h : IsLongest w o) :
    IsLongest (w ++ cs) (follow live w.length o cs).longest := by
  induction cs generalizing live w o with
  | nil =>
    rw [List.append_nil]
    exact h
  | cons c cs ih =>
    rw [follow, hlive]
    split
    · -- no rule is left after `c`, so the match before it is the longest one
      next hdead =>
      apply h.stop
      intro r hr
      exact not_matches_of_alive_eq_nil (List.isEmpty_iff.1 hdead) hr
    · have hnext := ih (advance_alive rules (w ++ [c])) (h.concat c)
      rw [List.append_assoc, List.singleton_append, List.length_append,
        List.length_singleton] at hnext
      rw [accepted?_alive]
      exact hnext

/-- The reading finds the longest match. -/
theorem longest_eq_iff {cs : List Char} {o : Option (Category × Nat)} :
    (longestMatch cs).longest = o ↔ IsLongest cs o := by
  have hnil : IsLongest [] none := by
    intro m hpos hle
    rw [List.length_nil] at hle
    omega
  have hlongest : IsLongest cs (longestMatch cs).longest :=
    isLongest_follow cs (advance_eq_alive rules) hnil
  constructor
  · rintro rfl
    exact hlongest
  · exact hlongest.unique

-- ---------------------------------------------------------------------------
-- What comes later
-- ---------------------------------------------------------------------------

theorem le_reach_follow (live : List Rule) (n : Nat) (o : Option (Category × Nat))
    (cs : List Char) : n ≤ (follow live n o cs).reach := by
  induction cs generalizing live n o with
  | nil => exact Nat.le_refl _
  | cons c cs ih =>
    rw [follow]
    split
    · exact Nat.le_refl _
    · exact Nat.le_of_succ_le (ih _ _ _)

theorem follow_congr {live : List Rule} {n : Nat} {o : Option (Category × Nat)}
    {u x : List Char} (y : List Char) (h : (follow live n o (u ++ x)).reach < n + u.length) :
    follow live n o (u ++ y) = follow live n o (u ++ x) := by
  induction u generalizing live n o with
  | nil =>
    have := le_reach_follow live n o x
    simp only [List.nil_append, List.length_nil] at h
    omega
  | cons c u ih =>
    rw [List.cons_append, follow] at h ⊢
    rw [List.cons_append, follow]
    split
    · rfl
    · next hlive =>
      rw [if_neg hlive] at h
      apply ih
      rw [List.length_cons] at h
      omega

/-- A reading that ends within `u` is the same for all texts that begin with `u`. -/
theorem longestMatch_congr {u x : List Char} (y : List Char)
    (h : (longestMatch (u ++ x)).reach < u.length) :
    longestMatch (u ++ y) = longestMatch (u ++ x) := by
  apply follow_congr
  rw [Nat.zero_add]
  exact h

end PhpImports
