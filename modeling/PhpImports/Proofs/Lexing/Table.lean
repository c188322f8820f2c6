import PhpImports.Proofs.Lexing.Munch
import PhpImports.Proofs.Lexing.Shape

/-!
# PhpImports — which rules can match where

The table is finite, and most questions about it are answered by looking at each rule:
which of them can begin with a given character, and which can have one in the middle.
A `;`, a brace or a separator stands in the middle of comments and strings only, so that
every other match ends before it.

## Results

* `mem_textRules` — the rules that go on over a `;`, a `{` or a separator.
* `mem_wordRules`, `mem_numberRules` — the rules that begin like a word or a number.
* `Keyword.ofText?`, `wordKind` — what a word is.
* `longest_mark`, `longest_blank`, `longest_word`, `longest_digit` — the match at a mark, a
  blank, a word and a number.
-/

namespace PhpImports

open Pattern Rule

/-- A property of some characters, looked at one by one. -/
theorem forall_mem_of_all {cs : List Char} {p : Char → Prop} [DecidablePred p]
    (h : (cs.all fun c => decide (p c)) = true) : ∀ c ∈ cs, p c := by
  intro c hc
  exact of_decide_eq_true (List.all_eq_true.1 h c hc)

-- ---------------------------------------------------------------------------
-- Parts of the table
-- ---------------------------------------------------------------------------

/-- First character of a reserved word or a name: two characters outside ASCII stand for
letters of reserved words. -/
def beginsWord (c : Char) : Bool :=
  isWordStart c || c == 'ſ' || c == '\u212a'

/-- These characters, one by one. -/
def wordFirsts : List Char :=
  ((List.range 128).map Char.ofNat).filter isWordStart ++ ['ſ', '\u212a']

/-- The digits. -/
def digitChars : List Char :=
  ['0', '1', '2', '3', '4', '5', '6', '7', '8', '9']

/-- Characters that no reserved word, tag or operator without a kind of its own begins with. -/
def looseChars : List Char :=
  [';', '\x7b', '\\', '\x22', '\x27', '\x60', '\n', ' '] ++ digitChars

/-- The marks of statements and paths, with their kinds. -/
def marks : List (Char × Kind) :=
  [(';', .semicolon), ('\x7b', .lBrace), ('\\', .nsSeparator)]

/-- The rules for fixed texts other than reserved words. -/
def fixedRules : List Rule :=
  tags ++ punctuation ++ operators

/-- The rules for numbers. -/
def numberRules : List Rule :=
  [⟨.token .lNumber, digits⟩, ⟨.token .lNumber, hexadecimal⟩, ⟨.token .lNumber, binary⟩,
    ⟨.token .dNumber, pointed⟩, ⟨.token .dNumber, seq digits exponent⟩]

/-- The category of a text by all rules but those for reserved words. -/
def otherCategory? (w : List Char) : Option Category :=
  ((tags ++ (punctuation ++ operators ++ openRules)).find?
    fun r => (r.pattern.after w).nullable).map Rule.category

/-- Whether some text of a pattern may have `d` behind its first character. -/
def Pattern.tailHolds (d : Char) : Pattern → Bool
  | .never | .empty | .one _ => false
  | .seq q r => q.tailHolds d || r.holds d
  | .alt q r => q.tailHolds d || r.tailHolds d
  | .star q => q.holds d

-- ---------------------------------------------------------------------------
-- Letters of reserved words
-- ---------------------------------------------------------------------------

theorem isAlpha_iff {c : Char} :
    c.isAlpha = true ↔ c.isUpper = true ∨ c.isLower = true :=
  Bool.or_eq_true_iff

theorem isUpper_iff {c : Char} : c.isUpper = true ↔ 'A'.val ≤ c.val ∧ c.val ≤ 'Z'.val :=
  decide_eq_true_iff

theorem isLower_iff {c : Char} : c.isLower = true ↔ 'a'.val ≤ c.val ∧ c.val ≤ 'z'.val := by
  show (decide ('a'.val ≤ c.val) && decide (c.val ≤ 'z'.val)) = true ↔ _
  rw [Bool.and_eq_true, decide_eq_true_eq, decide_eq_true_eq]

theorem beginsWord_of_foldsTo {c l : Char} (h : foldsTo c l = true) (hl : l.isLower = true) :
    beginsWord c = true := by
  simp only [foldsTo, Bool.or_eq_true, Bool.and_eq_true, beq_iff_eq] at h
  simp only [beginsWord, isWordStart, Bool.or_eq_true, beq_iff_eq, isAlpha_iff]
  rcases h with (h | ⟨h, -⟩) | ⟨h, -⟩
  · -- a letter, in upper case or as it is
    by_cases hupper : c.isUpper = true
    · exact .inl (.inl (.inl (.inl hupper)))
    · have hsame : c.toLower = c := dif_neg (mt isUpper_iff.2 hupper)
      rw [hsame] at h
      rw [h]
      exact .inl (.inl (.inl (.inr hl)))
  · exact .inl (.inr h)
  · exact .inr h

theorem spelling_ne_nil : ∀ w ∈ Keyword.all, w.spelling.toList ≠ [] := by
  decide

/-- Reserved words are written with small letters. -/
theorem isLower_spelling {w : Keyword} (hw : w ∈ Keyword.all) :
    ∀ l ∈ w.spelling.toList, l.isLower = true := by
  have hall : (Keyword.all.all fun w => w.spelling.toList.all Char.isLower) = true := by decide
  exact List.all_eq_true.1 (List.all_eq_true.1 hall w hw)

theorem exists_of_isEqv {R : Char → Char → Bool} {w s : List Char} (h : w.isEqv s R = true)
    {c : Char} (hc : c ∈ w) : ∃ l ∈ s, R c l = true := by
  induction w generalizing s with
  | nil => simp at hc
  | cons d w ih =>
    cases s with
    | nil => simp at h
    | cons l s =>
      rw [List.isEqv_cons_cons, Bool.and_eq_true] at h
      rcases List.mem_cons.1 hc with rfl | hc
      · exact ⟨l, List.mem_cons_self, h.1⟩
      · obtain ⟨l', hl', hR⟩ := ih h.2 hc
        exact ⟨l', List.mem_cons_of_mem _ hl', hR⟩

/-- A text that the rule of a reserved word matches is made of such characters. -/
theorem beginsWord_of_keywords {r : Rule} (hr : r ∈ keywords) {w : List Char}
    (h : r.pattern.Matches w) {c : Char} (hc : c ∈ w) : beginsWord c = true := by
  obtain ⟨k, hk, rfl⟩ := List.mem_map.1 hr
  obtain ⟨l, hl, hfolds⟩ := exists_of_isEqv (matches_word_isEqv_iff.1 h) hc
  exact beginsWord_of_foldsTo hfolds (isLower_spelling hk l hl)

-- ---------------------------------------------------------------------------
-- Characters in the middle
-- ---------------------------------------------------------------------------

theorem Pattern.tailHolds_of_matches {q : Pattern} {c d : Char} {w : List Char}
    (h : Matches q (c :: w)) (hd : d ∈ w) : q.tailHolds d = true := by
  induction q generalizing c w with
  | never => exact absurd h not_matches_never
  | empty => simp [matches_empty_iff] at h
  | one p =>
    obtain ⟨e, -, heq⟩ := matches_one_iff.1 h
    rw [List.cons.injEq] at heq
    rw [heq.2] at hd
    simp at hd
  | seq q r ihq _ =>
    obtain ⟨t, u, ht, hu, heq⟩ := matches_seq_iff.1 h
    rw [tailHolds, Bool.or_eq_true]
    cases t with
    | nil =>
      rw [List.nil_append] at heq
      refine .inr (holds_of_matches hu ?_)
      rw [← heq]
      exact List.mem_cons_of_mem _ hd
    | cons e t =>
      rw [List.cons_append, List.cons.injEq] at heq
      rw [heq.2] at hd
      rcases List.mem_append.1 hd with hd | hd
      · exact .inl (ihq ht hd)
      · exact .inr (holds_of_matches hu hd)
  | alt q r ihq ihr =>
    rw [tailHolds, Bool.or_eq_true]
    exact (matches_alt_iff.1 h).imp (ihq · hd) (ihr · hd)
  | star q =>
    show (star q).holds d = true
    exact holds_of_matches h (List.mem_cons_of_mem _ hd)

/-- The rules for comments and strings. -/
def textRules : List Rule :=
  [⟨.token .lineComment, seq (exactly "//") restOfLine⟩,
    ⟨.token .lineComment, seq (exactly "#") restOfLine⟩,
    ⟨.comment, blockComment⟩,
    ⟨.token .constantString, quoted '\x22'⟩,
    ⟨.token .constantString, quoted '\x27'⟩,
    ⟨.token .constantString, quoted '\x60'⟩]

theorem mem_rules {r : Rule} (hr : r ∈ rules) :
    r ∈ keywords ∨ r ∈ fixedRules ∨ r ∈ openRules := by
  simp only [rules, literalRules, fixedRules, List.mem_append] at hr ⊢
  rcases hr with (((hr | hr) | hr) | hr) | hr
  · exact .inr (.inl (.inl (.inl hr)))
  · exact .inl hr
  · exact .inr (.inl (.inl (.inr hr)))
  · exact .inr (.inl (.inr hr))
  · exact .inr (.inr hr)

theorem tailHolds_fixedRules :
    ∀ d ∈ [';', '\x7b', '\\'], ∀ r ∈ fixedRules, r.pattern.tailHolds d = false :=
  forall_mem_of_all (by decide)

theorem filter_tailHolds_openRules :
    openRules.filter (fun r => r.pattern.tailHolds ';' || r.pattern.tailHolds '\x7b' ||
      r.pattern.tailHolds '\\') = textRules := rfl

/-- Only comments and strings go on over a `;`, an opening brace or a separator. -/
theorem mem_textRules {r : Rule} (hr : r ∈ rules) {c d : Char} {w : List Char}
    (h : r.pattern.Matches (c :: w)) (hd : d ∈ w) (hmark : d ∈ [';', '\x7b', '\\']) :
    r ∈ textRules := by
  have hholds := tailHolds_of_matches h hd
  have hletters : ∀ d ∈ [';', '\x7b', '\\'], beginsWord d = false :=
    forall_mem_of_all (by decide)
  rcases mem_rules hr with hr | hr | hr
  · have hword := beginsWord_of_keywords hr h (List.mem_cons_of_mem _ hd)
    rw [hletters d hmark] at hword
    exact absurd hword (by simp)
  · rw [tailHolds_fixedRules d hmark r hr] at hholds
    exact absurd hholds (by simp)
  · rw [← filter_tailHolds_openRules, List.mem_filter]
    refine ⟨hr, ?_⟩
    simp only [List.mem_cons, List.not_mem_nil, or_false] at hmark
    rcases hmark with rfl | rfl | rfl <;> simp [hholds]

-- ---------------------------------------------------------------------------
-- First characters
-- ---------------------------------------------------------------------------

theorem not_beginsWord_looseChars : ∀ c ∈ looseChars, beginsWord c = false :=
  forall_mem_of_all (by decide)

theorem begins_looseChars : ∀ c ∈ looseChars, ∀ r ∈ tags, r.pattern.begins c = false :=
  forall_mem_of_all (by decide)

/-- Operators begin with none of them, and with no letter. -/
theorem head_operators : ∀ r ∈ operators, ∃ s : String, r = literal .operator s ∧
    (s.toList.head?.all fun l => !beginsWord l && !looseChars.contains l) = true := by
  intro r hr
  obtain ⟨s, hs, rfl⟩ := List.mem_map.1 hr
  refine ⟨s, rfl, ?_⟩
  clear hr
  revert s
  decide

theorem not_matches_operators {c : Char} (hc : c ∈ looseChars ∨ beginsWord c = true) {r : Rule}
    (hr : r ∈ operators) (w : List Char) : ¬ r.pattern.Matches (c :: w) := by
  intro h
  obtain ⟨s, rfl, hhead⟩ := head_operators r hr
  -- the text that is matched is the operator itself
  rw [← matches_exactly_iff.1 h] at hhead
  rcases hc with hc | hc <;> simp [hc] at hhead

/-- A rule that matches a text with such a first character is for punctuation or open-ended. -/
theorem mem_filter_begins {r : Rule} (hr : r ∈ rules) {c : Char} {w : List Char}
    (h : r.pattern.Matches (c :: w)) (hc : c ∈ looseChars) :
    r ∈ (punctuation ++ openRules).filter (·.pattern.begins c) := by
  have hbegins := begins_of_matches h
  rw [List.mem_filter, List.mem_append]
  refine ⟨?_, hbegins⟩
  rcases mem_rules hr with hr | hr | hr
  · have hword := beginsWord_of_keywords hr h List.mem_cons_self
    rw [not_beginsWord_looseChars c hc] at hword
    exact absurd hword (by simp)
  · simp only [fixedRules, List.mem_append] at hr
    rcases hr with (hr | hr) | hr
    · rw [begins_looseChars c hc r hr] at hbegins
      exact absurd hbegins (by simp)
    · exact .inl hr
    · exact absurd h (not_matches_operators (.inl hc) hr w)
  · exact .inr hr

theorem begins_quotes : ∀ mark ∈ ['\x22', '\x27', '\x60'],
    (punctuation ++ openRules).filter (·.pattern.begins mark) =
      [⟨.token .constantString, quoted mark⟩] := by
  simp only [List.mem_cons, List.not_mem_nil, or_false]
  rintro mark (rfl | rfl | rfl) <;> rfl

/-- A text that begins with a quotation mark is a string. -/
theorem eq_of_matches_mark {r : Rule} (hr : r ∈ rules) {mark : Char} {w : List Char}
    (hmark : mark ∈ ['\x22', '\x27', '\x60']) (h : r.pattern.Matches (mark :: w)) :
    r = ⟨.token .constantString, quoted mark⟩ := by
  have hloose : ∀ c ∈ ['\x22', '\x27', '\x60'], c ∈ looseChars :=
    forall_mem_of_all (by decide)
  have hmem := mem_filter_begins hr h (hloose mark hmark)
  rw [begins_quotes mark hmark] at hmem
  exact List.mem_singleton.1 hmem

/-- A text that begins as no fixed text does is matched by an open-ended pattern that goes on
over its beginning. -/
theorem mem_openRules_of_matches {r : Rule} (hr : r ∈ rules) {s w : List Char}
    (hword : (s.any fun c => !beginsWord c) = true)
    (hfixed : ∀ r ∈ fixedRules, (r.pattern.after s).isNever = true)
    (h : r.pattern.Matches (s ++ w)) :
    r ∈ openRules.filter fun r => !(r.pattern.after s).isNever := by
  have hlive : (r.pattern.after s).isNever = false := isNever_after_eq_false h
  rcases mem_rules hr with hr | hr | hr
  · obtain ⟨c, hc, hother⟩ := List.any_eq_true.1 hword
    rw [beginsWord_of_keywords hr h (List.mem_append_left w hc)] at hother
    exact absurd hother (by simp)
  · rw [hfixed r hr] at hlive
    exact absurd hlive (by simp)
  · exact List.mem_filter.2 ⟨hr, by rw [hlive]; rfl⟩

theorem after_opening_fixedRules :
    ∀ r ∈ fixedRules, (r.pattern.after ['/', '*']).isNever = true := by
  decide

theorem filter_after_opening_openRules :
    openRules.filter (fun r => !(r.pattern.after ['/', '*']).isNever) =
      [⟨.comment, blockComment⟩] := rfl

/-- A text that begins with `/*` is a comment. -/
theorem eq_of_matches_opening {r : Rule} (hr : r ∈ rules) {w : List Char}
    (h : r.pattern.Matches ('/' :: '*' :: w)) : r = ⟨.comment, blockComment⟩ := by
  have hmem := mem_openRules_of_matches hr (s := ['/', '*']) (by decide)
    after_opening_fixedRules h
  rw [filter_after_opening_openRules] at hmem
  exact List.mem_singleton.1 hmem

-- ---------------------------------------------------------------------------
-- Marks
-- ---------------------------------------------------------------------------

theorem filter_begins_marks : ∀ m ∈ marks,
    (punctuation ++ openRules).filter (·.pattern.begins m.1) =
      [⟨.token m.2, seq (char m.1) empty⟩] := by
  simp only [marks, List.mem_cons, List.not_mem_nil, or_false]
  rintro m (rfl | rfl | rfl) <;> rfl

/-- No reserved word begins with another character than a word does. -/
theorem categoryOf?_eq {c : Char} (hc : beginsWord c = false) (w : List Char) :
    categoryOf? (c :: w) = otherCategory? (c :: w) := by
  have hnone : keywords.find? (fun r => (r.pattern.after (c :: w)).nullable) = none := by
    rw [List.find?_eq_none]
    intro r hr hnull
    have hword := beginsWord_of_keywords hr (nullable_after_iff.1 hnull) List.mem_cons_self
    rw [hc] at hword
    exact absurd hword (by simp)
  rw [categoryOf?, otherCategory?, rules, literalRules]
  simp only [List.find?_append, hnone, Option.or_none, Option.or_assoc]

theorem otherCategory?_marks : ∀ m ∈ marks, otherCategory? [m.1] = some (.token m.2) := by
  decide

theorem categoryOf?_marks : ∀ m ∈ marks, categoryOf? [m.1] = some (.token m.2) := by
  have hletters : ∀ m ∈ marks, beginsWord m.1 = false := by decide
  intro m hm
  rw [categoryOf?_eq (hletters m hm)]
  exact otherCategory?_marks m hm

theorem isLongest_singleton {c : Char} {k : Category} (h : categoryOf? [c] = some k) :
    IsLongest [c] (some (k, 1)) := by
  refine ⟨Nat.le_refl _, Nat.le_refl _, h, ?_⟩
  intro m hlt hle
  rw [List.length_singleton] at hle
  omega

/-- A mark is a token of its own, whatever comes after it. -/
theorem longest_mark {c : Char} {k : Kind} (hm : (c, k) ∈ marks) (y : List Char) :
    (longestMatch (c :: y)).longest = some (.token k, 1) := by
  rw [longest_eq_iff]
  have hone : IsLongest [c] (some (.token k, 1)) :=
    isLongest_singleton (categoryOf?_marks (c, k) hm)
  cases y with
  | nil => exact hone
  | cons d y =>
    apply hone.stop
    intro r hr u hmatches
    have hloose : ∀ m ∈ marks, m.1 ∈ looseChars := by decide
    have hmem := mem_filter_begins hr hmatches (hloose (c, k) hm)
    rw [filter_begins_marks (c, k) hm, List.mem_singleton] at hmem
    subst hmem
    rw [char, matches_one_seq_iff] at hmatches
    obtain ⟨e, v, heq, -, hv⟩ := hmatches
    rw [matches_empty_iff] at hv
    rw [hv] at heq
    simp at heq

-- ---------------------------------------------------------------------------
-- Blanks
-- ---------------------------------------------------------------------------

theorem blank_mem_looseChars : ∀ c ∈ ['\n', ' '], c ∈ looseChars :=
  forall_mem_of_all (by decide)

theorem filter_begins_blanks : ∀ c ∈ ['\n', ' '],
    (punctuation ++ openRules).filter (·.pattern.begins c) =
      [⟨.token .whitespace, plus (one isLayout)⟩] := by
  simp only [List.mem_cons, List.not_mem_nil, or_false]
  rintro c (rfl | rfl) <;> rfl

theorem otherCategory?_blanks :
    ∀ c ∈ ['\n', ' '], otherCategory? [c] = some (.token .whitespace) :=
  forall_mem_of_all (by decide)

theorem categoryOf?_blanks : ∀ c ∈ ['\n', ' '], categoryOf? [c] = some (.token .whitespace) := by
  intro c hc
  rw [categoryOf?_eq (not_beginsWord_looseChars c (blank_mem_looseChars c hc))]
  exact otherCategory?_blanks c hc

/-- A blank before something else is a token of its own. -/
theorem longest_blank {c d : Char} (y : List Char) (hc : c ∈ ['\n', ' '])
    (hd : isLayout d = false) :
    (longestMatch (c :: d :: y)).longest = some (.token .whitespace, 1) := by
  rw [longest_eq_iff]
  apply (isLongest_singleton (categoryOf?_blanks c hc)).stop
  intro r hr u hmatches
  have hmem := mem_filter_begins hr hmatches (blank_mem_looseChars c hc)
  rw [filter_begins_blanks c hc, List.mem_singleton] at hmem
  subst hmem
  have hlayout := (matches_plus_one_iff.1 hmatches).2 d List.mem_cons_self
  rw [hd] at hlayout
  exact absurd hlayout (by simp)

-- ---------------------------------------------------------------------------
-- Words
-- ---------------------------------------------------------------------------

/-- The rules for reserved words and for names. -/
def wordRules : List Rule :=
  keywords ++ [⟨.token .identifier, name⟩]

/-- The other rules. -/
def otherRules : List Rule :=
  tags ++ punctuation ++ operators ++ openRules.dropLast

/-- The word characters lie between the digit zero and the letter z. -/
theorem toNat_of_isWordChar {c : Char} (h : isWordChar c = true) :
    48 ≤ c.toNat ∧ c.toNat ≤ 122 := by
  have hrange : ∀ {a b : Char}, 48 ≤ a.toNat → b.toNat ≤ 122 → a.val ≤ c.val ∧ c.val ≤ b.val →
      48 ≤ c.toNat ∧ c.toNat ≤ 122 := by
    intro a b ha hb hc
    exact ⟨Nat.le_trans ha (UInt32.le_iff_toNat_le.1 hc.1),
      Nat.le_trans (UInt32.le_iff_toNat_le.1 hc.2) hb⟩
  simp only [isWordChar, Char.isAlphanum, Bool.or_eq_true, beq_iff_eq, isAlpha_iff, isUpper_iff,
    isLower_iff] at h
  rcases h with ((h | h) | h) | rfl
  · exact hrange (by decide) (by decide) h
  · exact hrange (by decide) (by decide) h
  · rw [Char.isDigit, Bool.and_eq_true, decide_eq_true_eq, decide_eq_true_eq] at h
    exact hrange (a := '0') (b := '9') (by decide) (by decide) h
  · decide

theorem toNat_lt_of_isWordStart {c : Char} (h : isWordStart c = true) : c.toNat < 128 := by
  have hc := toNat_of_isWordChar (isWordChar_of_isWordStart h)
  omega

theorem mem_wordFirsts {c : Char} (hc : beginsWord c = true) : c ∈ wordFirsts := by
  simp only [beginsWord, Bool.or_eq_true, beq_iff_eq] at hc
  rw [wordFirsts, List.mem_append]
  rcases hc with (hc | rfl) | rfl
  · left
    rw [List.mem_filter, List.mem_map]
    exact ⟨⟨c.toNat, List.mem_range.2 (toNat_lt_of_isWordStart hc), Char.ofNat_toNat c⟩, hc⟩
  · exact .inr (by simp)
  · exact .inr (by simp)

theorem begins_wordFirsts : ∀ c ∈ wordFirsts,
    ∀ r ∈ tags ++ punctuation ++ openRules.dropLast, r.pattern.begins c = false :=
  forall_mem_of_all (by decide)

theorem not_matches_otherRules {c : Char} (hc : beginsWord c = true) {r : Rule}
    (hr : r ∈ otherRules) (w : List Char) : ¬ r.pattern.Matches (c :: w) := by
  intro h
  have hbegins := begins_of_matches h
  have hnot : r ∉ tags ++ punctuation ++ openRules.dropLast := by
    intro hmem
    rw [begins_wordFirsts c (mem_wordFirsts hc) r hmem] at hbegins
    exact absurd hbegins (by simp)
  simp only [otherRules, List.mem_append, not_or] at hr hnot
  rcases hr with ((hr | hr) | hr) | hr
  · exact hnot.1.1 hr
  · exact hnot.1.2 hr
  · exact not_matches_operators (.inr hc) hr w h
  · exact hnot.2 hr

theorem openRules_eq : openRules = openRules.dropLast ++ [⟨.token .identifier, name⟩] := rfl

theorem mem_wordRules_or_otherRules {r : Rule} (hr : r ∈ rules) :
    r ∈ wordRules ∨ r ∈ otherRules := by
  rw [rules, literalRules, openRules_eq] at hr
  simp only [otherRules, wordRules, List.mem_append] at hr ⊢
  rcases hr with (((hr | hr) | hr) | hr) | (hr | hr)
  · exact .inr (.inl (.inl (.inl hr)))
  · exact .inl (.inl hr)
  · exact .inr (.inl (.inl (.inr hr)))
  · exact .inr (.inl (.inr hr))
  · exact .inr (.inr hr)
  · exact .inl (.inr hr)

theorem mem_wordRules {r : Rule} (hr : r ∈ rules) {c : Char} {w : List Char}
    (hc : beginsWord c = true) (h : r.pattern.Matches (c :: w)) : r ∈ wordRules :=
  (mem_wordRules_or_otherRules hr).resolve_right fun hother =>
    not_matches_otherRules hc hother w h

theorem holds_name : ∀ d ∈ [';', '\\', ' '], name.holds d = false ∧ beginsWord d = false :=
  forall_mem_of_all (by decide)

/-- No mark or blank stands in a word. -/
theorem not_mem_word {r : Rule} (hr : r ∈ wordRules) {w : List Char} (h : r.pattern.Matches w)
    {d : Char} (hd : d ∈ [';', '\\', ' ']) : d ∉ w := by
  intro hmem
  rcases List.mem_append.1 hr with hr | hr
  · have hword := beginsWord_of_keywords hr h hmem
    rw [(holds_name d hd).2] at hword
    exact absurd hword (by simp)
  · rw [List.mem_singleton.1 hr] at h
    have hholds := holds_of_matches h hmem
    rw [(holds_name d hd).1] at hholds
    exact absurd hholds (by simp)

/-- The reserved word that a text spells, whatever the case of its letters. -/
def Keyword.ofText? (text : String) : Option Keyword :=
  Keyword.all.find? fun w => text.toList.isEqv w.spelling.toList foldsTo

/-- The kind of a word that is not in name position. -/
def wordKind (text : String) : Kind :=
  match Keyword.ofText? text with
  | some w => .keyword w
  | none => .identifier

theorem wordKind_eq_identifier_iff {text : String} :
    wordKind text = .identifier ↔ Keyword.ofText? text = none := by
  unfold wordKind
  split <;> simp_all

theorem wordKind_eq_keyword_iff {text : String} {w : Keyword} :
    wordKind text = .keyword w ↔ Keyword.ofText? text = some w := by
  unfold wordKind
  split <;> simp_all

theorem isMeaningful_wordKind (text : String) : (wordKind text).isMeaningful = true := by
  unfold wordKind
  split <;> rfl

theorem wordKind_ne_closeTag (text : String) : wordKind text ≠ .closeTag := by
  unfold wordKind
  split <;> simp

theorem find?_keywords (w : List Char) :
    keywords.find? (fun r => (r.pattern.after w).nullable) =
      (Keyword.ofText? (String.ofList w)).map fun k => folded (.keyword k) k.spelling := by
  rw [keywords, List.find?_map, Keyword.ofText?, String.toList_ofList]
  congr 2
  funext k
  rw [Bool.eq_iff_iff]
  show ((folded (.keyword k) k.spelling).pattern.after w).nullable = true ↔ _
  rw [nullable_after_iff, folded, matches_word_isEqv_iff]

theorem find?_eq_none_of_otherRules {c : Char} (hc : beginsWord c = true) (w : List Char)
    {table : List Rule} (h : ∀ r ∈ table, r ∈ otherRules) :
    table.find? (fun r => (r.pattern.after (c :: w)).nullable) = none := by
  rw [List.find?_eq_none]
  intro r hr hnull
  exact not_matches_otherRules hc (h r hr) w (nullable_after_iff.1 hnull)

/-- The category of a reserved word or a name. -/
theorem categoryOf?_word {c : Char} {w : List Char} (hc : beginsWord c = true)
    (hword : Keyword.ofText? (String.ofList (c :: w)) ≠ none ∨ name.Matches (c :: w)) :
    categoryOf? (c :: w) = some (.token (wordKind (String.ofList (c :: w)))) := by
  have hopen : openRules.find? (fun r => (r.pattern.after (c :: w)).nullable) =
      [(⟨.token .identifier, name⟩ : Rule)].find?
        fun r => (r.pattern.after (c :: w)).nullable := by
    rw [openRules_eq, List.find?_append, find?_eq_none_of_otherRules hc w, Option.none_or]
    intro r hr
    exact List.mem_append.2 (.inr hr)
  have hrest : ∀ table ∈ [tags, punctuation, operators],
      table.find? (fun r => (r.pattern.after (c :: w)).nullable) = none := by
    intro table htable
    apply find?_eq_none_of_otherRules hc w
    intro r hr
    simp only [otherRules, List.mem_append]
    simp only [List.mem_cons, List.not_mem_nil, or_false] at htable
    rcases htable with rfl | rfl | rfl
    · exact .inl (.inl (.inl hr))
    · exact .inl (.inl (.inr hr))
    · exact .inl (.inr hr)
  rw [categoryOf?, rules, literalRules, List.find?_append, List.find?_append, List.find?_append,
    List.find?_append, hrest tags (by simp), hrest punctuation (by simp),
    hrest operators (by simp), Option.none_or, Option.or_none, Option.or_none, hopen,
    find?_keywords, wordKind]
  cases hkey : Keyword.ofText? (String.ofList (c :: w)) with
  | some k => rfl
  | none =>
    have hname := hword.resolve_left (fun h => h hkey)
    rw [Option.map_none, Option.none_or, List.find?_singleton,
      if_pos (nullable_after_iff.2 hname)]
    rfl

/-- A word is matched through its last character, if a mark or a blank comes after it. -/
theorem longest_word {c d : Char} {w : List Char} (y : List Char) (hc : beginsWord c = true)
    (hword : Keyword.ofText? (String.ofList (c :: w)) ≠ none ∨ name.Matches (c :: w))
    (hd : d ∈ [';', '\\', ' ']) :
    (longestMatch (c :: (w ++ d :: y))).longest =
      some (.token (wordKind (String.ofList (c :: w))), w.length + 1) := by
  rw [longest_eq_iff]
  have hall : (c :: w).take (w.length + 1) = c :: w := List.take_of_length_le (Nat.le_refl _)
  have hone : IsLongest (c :: w)
      (some (.token (wordKind (String.ofList (c :: w))), w.length + 1)) := by
    refine ⟨by omega, Nat.le_refl _, by rw [hall, categoryOf?_word hc hword], ?_⟩
    intro m hlt hle
    rw [List.length_cons] at hle
    omega
  apply hone.stop
  intro r hr u hmatches
  exact not_mem_word (mem_wordRules hr hc hmatches) hmatches hd
    (List.mem_append.2 (.inr List.mem_cons_self))

-- ---------------------------------------------------------------------------
-- Numbers
-- ---------------------------------------------------------------------------

theorem mem_digitChars {c : Char} (h : c.isDigit = true) : c ∈ digitChars := by
  have hdigits : ∀ n ∈ List.range 10, Char.ofNat (48 + n) ∈ digitChars := by decide
  simp only [Char.isDigit, Bool.and_eq_true, decide_eq_true_eq] at h
  have hlow : 48 ≤ c.toNat := UInt32.le_iff_toNat_le.1 h.1
  have hhigh : c.toNat ≤ 57 := UInt32.le_iff_toNat_le.1 h.2
  have hmem := hdigits (c.toNat - 48) (List.mem_range.2 (by omega))
  rwa [Nat.add_sub_cancel' hlow, Char.ofNat_toNat] at hmem

theorem begins_digit : ∀ c ∈ digitChars,
    ∀ r ∈ punctuation ++ openRules.take 5 ++ openRules.drop 10, r.pattern.begins c = false :=
  forall_mem_of_all (by decide)

theorem openRules_eq_numbers :
    openRules = openRules.take 5 ++ numberRules ++ openRules.drop 10 := rfl

theorem mem_numberRules {r : Rule} (hr : r ∈ rules) {c : Char} {w : List Char}
    (hc : c.isDigit = true) (h : r.pattern.Matches (c :: w)) : r ∈ numberRules := by
  have hdigit := mem_digitChars hc
  have hmem := mem_filter_begins hr h (List.mem_append.2 (.inr hdigit))
  rw [List.mem_filter, openRules_eq_numbers] at hmem
  obtain ⟨hmem, hbegins⟩ := hmem
  have hnot : r ∉ punctuation ++ openRules.take 5 ++ openRules.drop 10 := by
    intro hother
    rw [begins_digit c hdigit r hother] at hbegins
    exact absurd hbegins (by simp)
  simp only [List.mem_append] at hmem hnot
  rcases hmem with hmem | ((hmem | hmem) | hmem)
  · exact absurd (.inl (.inl hmem)) hnot
  · exact absurd (.inl (.inr hmem)) hnot
  · exact hmem
  · exact absurd (.inr hmem) hnot

theorem category_numberRules : ∀ r ∈ numberRules,
    r.category = .token .lNumber ∨ r.category = .token .dNumber := by
  decide

theorem holds_numberRules :
    ∀ d ∈ [';', '\\', ' '], ∀ r ∈ numberRules, r.pattern.holds d = false :=
  forall_mem_of_all (by decide)

/-- A digit begins a number, which ends before the next mark, whatever comes after that. -/
theorem longest_digit {c : Char} (w : List Char) (hc : c.isDigit = true) :
    ∃ k n, (k = .lNumber ∨ k = .dNumber) ∧ n ≤ w.length ∧
      ∀ d y, d ∈ [';', '\\', ' '] →
        (longestMatch (c :: (w ++ d :: y))).longest = some (.token k, n + 1) := by
  have hlongest := longest_eq_iff.1 (rfl : (longestMatch (c :: w)).longest = _)
  cases hfound : (longestMatch (c :: w)).longest with
  | none =>
    -- the digit alone is a number already
    rw [hfound] at hlongest
    have hone := hlongest 1 (Nat.le_refl _) (by simp)
    rw [categoryOf?_eq_none_iff] at hone
    have hdigits : digits.Matches [c] := matches_plus_one_iff.2 ⟨hc, by simp⟩
    exact absurd hdigits (hone ⟨.token .lNumber, digits⟩ (by simp [rules, openRules]))
  | some found =>
    obtain ⟨cat, m⟩ := found
    rw [hfound] at hlongest
    have hwhole := hlongest
    obtain ⟨hpos, hle, hk, -⟩ := hlongest
    obtain ⟨n, rfl⟩ : ∃ n, m = n + 1 := ⟨m - 1, by omega⟩
    obtain ⟨r, hr, hcat, hmatches⟩ := exists_rule_of_categoryOf? hk
    rw [List.take_succ_cons] at hmatches
    have hkind : ∃ k, (k = .lNumber ∨ k = .dNumber) ∧ cat = .token k := by
      rcases category_numberRules r (mem_numberRules hr hc hmatches) with h | h
      · exact ⟨_, .inl rfl, by rw [← hcat, h]⟩
      · exact ⟨_, .inr rfl, by rw [← hcat, h]⟩
    obtain ⟨k, hnumber, rfl⟩ := hkind
    refine ⟨k, n, hnumber, by simpa using hle, ?_⟩
    intro d y hd
    rw [longest_eq_iff]
    apply hwhole.stop
    intro r hr u hover
    have hholds := holds_of_matches hover (List.mem_append.2 (.inr List.mem_cons_self))
    rw [holds_numberRules d hd r (mem_numberRules hr hc hover)] at hholds
    exact absurd hholds (by simp)

end PhpImports
