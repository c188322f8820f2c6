import PhpImports.Proofs.Lexing.Heredoc
import PhpImports.Proofs.Lexing.ImportText
import PhpImports.Proofs.Lexing.LineComment

/-!
# PhpImports — the characters at the edges of a token

Names are written in ASCII, and so is what a token begins and ends with, as far as the table
goes. Three things are exceptions: a reserved word may have the long s or the Kelvin sign for one
of its letters, a comment to the end of the line takes every character, and an error covers what
no rule matches. Comments end where the line does, so that only errors and reserved words can put
a character outside ASCII directly before the next token.

## Results

* `Pattern.ends_of_matches`                    — the last character of a text, by the pattern.
* `codeLexeme_of_first`, `codeLexeme_of_last`  — what begins and what ends outside ASCII.
* `endsOutside_of_last`                        — what ends outside ASCII before a name.
-/

namespace PhpImports

open Pattern Rule

-- ---------------------------------------------------------------------------
-- The last character of a text
-- ---------------------------------------------------------------------------

/-- Whether some text of a pattern may end in `c`. -/
def Pattern.ends (c : Char) : Pattern → Bool
  | never | empty => false
  | one p => p c
  | seq q r => r.ends c || (r.nullable && q.ends c)
  | alt q r => q.ends c || r.ends c
  | star q => q.ends c

theorem Pattern.ends_of_matches {q : Pattern} {c : Char} {w : List Char} (h : Matches q w)
    (hc : w.getLast? = some c) : q.ends c = true := by
  induction h with
  | empty => simp at hc
  | one hp =>
    cases hc
    exact hp
  | @seq q r s t hs ht ihs iht =>
    rw [ends, Bool.or_eq_true, Bool.and_eq_true]
    cases hlast : t.getLast? with
    | some d =>
      rw [List.getLast?_append, hlast, Option.some_or] at hc
      exact .inl (iht (hlast.trans hc))
    | none =>
      rw [List.getLast?_append, hlast, Option.none_or] at hc
      rw [List.getLast?_eq_none_iff] at hlast
      subst hlast
      exact .inr ⟨nullable_iff.2 ht, ihs hc⟩
  | left _ ih =>
    rw [ends, ih hc]
    rfl
  | right _ ih =>
    rw [ends, ih hc]
    exact Bool.or_true _
  | done => simp at hc
  | @again q s t hs _ ihs iht =>
    cases hlast : t.getLast? with
    | some d =>
      rw [List.getLast?_append, hlast, Option.some_or] at hc
      exact iht (hlast.trans hc)
    | none =>
      rw [List.getLast?_append, hlast, Option.none_or] at hc
      exact ihs hc

-- ---------------------------------------------------------------------------
-- Characters outside ASCII
-- ---------------------------------------------------------------------------

section Outside

variable {c : Char}

theorem beq_eq_false_of_outside (hc : 128 ≤ c.toNat) {d : Char} (hd : d.toNat < 128) :
    (c == d) = false := by
  rw [beq_eq_false_iff_ne]
  intro heq
  rw [heq] at hc
  omega

theorem not_le_of_outside (hc : 128 ≤ c.toNat) {d : Char} (hd : d.toNat < 128) :
    ¬ c.val ≤ d.val := by
  intro hle
  have hlt : c.toNat < 128 := Nat.lt_of_le_of_lt (UInt32.le_iff_toNat_le.1 hle) hd
  omega

theorem isWordChar_eq_false (hc : 128 ≤ c.toNat) : isWordChar c = false := by
  cases h : isWordChar c with
  | false => rfl
  | true =>
    have hrange := toNat_of_isWordChar h
    omega

theorem isWordStart_eq_false (hc : 128 ≤ c.toNat) : isWordStart c = false := by
  cases h : isWordStart c with
  | false => rfl
  | true =>
    rw [← isWordChar_eq_false hc, isWordChar_of_isWordStart h]

theorem isDigit_eq_false (hc : 128 ≤ c.toNat) : c.isDigit = false := by
  cases h : c.isDigit with
  | false => rfl
  | true =>
    rw [← isWordChar_eq_false hc]
    simp [isWordChar, Char.isAlphanum, h]

theorem isHexDigit_eq_false (hc : 128 ≤ c.toNat) : isHexDigit c = false := by
  cases h : isHexDigit c with
  | false => rfl
  | true =>
    simp only [isHexDigit, isDigit_eq_false hc, Bool.false_or, Bool.or_eq_true, Bool.and_eq_true,
      decide_eq_true_eq] at h
    rcases h with ⟨-, h⟩ | ⟨-, h⟩
    · exact absurd h (not_le_of_outside hc (by decide))
    · exact absurd h (not_le_of_outside hc (by decide))

/-- Only the letters `s` and `k` may be written outside ASCII. -/
theorem foldsTo_eq_false (hc : 128 ≤ c.toNat) {l : Char} (hl : l.toNat < 128) (hs : l ≠ 's')
    (hk : l ≠ 'k') : foldsTo c l = false := by
  have hupper : ¬ ('A'.val ≤ c.val ∧ c.val ≤ 'Z'.val) := by
    intro h
    exact not_le_of_outside hc (by decide) h.2
  have hsame : c.toLower = c := dif_neg hupper
  simp [foldsTo, hsame, beq_eq_false_of_outside hc hl, hs, hk]

theorem isLayout_eq_false (hc : 128 ≤ c.toNat) : isLayout c = false := by
  simp [isLayout, beq_eq_false_of_outside hc]

theorem holds_word {R : Char → Char → Bool} (s : List Char) :
    (word (s.map fun l d => R d l)).holds c = s.any fun l => R c l := by
  induction s with
  | nil => rfl
  | cons l s ih =>
    rw [List.any_cons, ← ih]
    rfl

theorem holds_exactly (hc : 128 ≤ c.toNat) {s : String}
    (hs : (s.toList.all fun l => decide (l.toNat < 128)) = true) :
    (exactly s).holds c = false := by
  rw [exactly, holds_word (R := fun d l => d == l), List.any_eq_false]
  intro l hl
  have hlt := of_decide_eq_true (List.all_eq_true.1 hs l hl)
  simp [beq_eq_false_of_outside hc hlt]

theorem holds_fixedRules (hc : 128 ≤ c.toNat) : ∀ r ∈ fixedRules, r.pattern.holds c = false := by
  have htag : (folded .openTag "<?php").pattern.holds c = false := by
    rw [folded, holds_word]
    simp [foldsTo_eq_false hc]
  have hoperators : ∀ r ∈ operators, r.pattern.holds c = false := by
    rw [operators, List.forall_mem_map]
    intro s hs
    refine holds_exactly hc ?_
    revert s
    decide
  rw [fixedRules, List.forall_mem_append, List.forall_mem_append]
  refine ⟨⟨?_, ?_⟩, hoperators⟩
  · simp (disch := decide) [tags, htag, literal, holds_exactly hc]
  · simp (disch := decide) [punctuation, literal, holds_exactly hc]

theorem begins_openRules (hc : 128 ≤ c.toNat) : ∀ r ∈ openRules, r.pattern.begins c = false := by
  simp [openRules, begins, nullable, plus, opt, char, exactly, word, name, restOfLine, blockComment,
    digits, hexadecimal, binary, pointed, exponent, quoted, enclosed, heredocOpener,
    beq_eq_false_of_outside hc, isWordStart_eq_false hc, isDigit_eq_false hc, isLayout_eq_false hc]

theorem ends_openRules (hc : 128 ≤ c.toNat) :
    ∀ r ∈ openRules, r.category ≠ .token .lineComment → r.pattern.ends c = false := by
  simp [openRules, ends, nullable, plus, opt, char, name, blockComment, digits, hexadecimal, binary,
    pointed, exponent, quoted, enclosed, heredocOpener, beq_eq_false_of_outside hc,
    isWordStart_eq_false hc, isWordChar_eq_false hc, isDigit_eq_false hc, isHexDigit_eq_false hc,
    isLayout_eq_false hc]

-- ---------------------------------------------------------------------------
-- Reserved words
-- ---------------------------------------------------------------------------

/-- The reserved words that end in a letter that may be written outside ASCII. -/
def cuttingWords : List Keyword :=
  [.asKw, .breakKw, .classKw, .extendsKw, .implementsKw]

theorem spelling_of_not_mem_cuttingWords : ∀ w ∈ Keyword.all, w ∉ cuttingWords →
    (w.spelling.toList.getLast?.all fun l => l.toNat < 128 && l != 's' && l != 'k') = true := by
  decide

theorem nullable_word_cons {p : Char → Bool} {classes : List (Char → Bool)} :
    (word (p :: classes)).nullable = false := rfl

theorem ends_word {R : Char → Char → Bool} (s : List Char) :
    (word (s.map fun l d => R d l)).ends c = s.getLast?.any fun l => R c l := by
  induction s with
  | nil => rfl
  | cons l s ih =>
    show ((word (s.map fun l d => R d l)).ends c ||
      ((word (s.map fun l d => R d l)).nullable && R c l)) = _
    rw [ih]
    cases s with
    | nil => simp [word, nullable]
    | cons m s =>
      rw [List.map_cons, nullable_word_cons, Bool.false_and, Bool.or_false,
        List.getLast?_cons_cons]

theorem mem_cuttingWords (hc : 128 ≤ c.toNat) {w : Keyword} (hw : w ∈ Keyword.all) {v : List Char}
    (h : v.isEqv w.spelling.toList foldsTo = true) (hlast : v.getLast? = some c) :
    w ∈ cuttingWords := by
  by_contra hnot
  have hends := ends_of_matches (matches_word_isEqv_iff.2 h) hlast
  have hspelling := spelling_of_not_mem_cuttingWords w hw hnot
  rw [ends_word] at hends
  obtain ⟨l, hl, hfolds⟩ := (Option.any_eq_true _ _).1 hends
  rw [hl, Option.all_some, Bool.and_eq_true, Bool.and_eq_true, decide_eq_true_eq, bne_iff_ne,
    bne_iff_ne] at hspelling
  rw [foldsTo_eq_false hc hspelling.1.1 hspelling.1.2 hspelling.2] at hfolds
  exact absurd hfolds (by simp)

end Outside

-- ---------------------------------------------------------------------------
-- The token at the beginning of code
-- ---------------------------------------------------------------------------

section Code

variable {cs : List Char} {c : Char}

theorem exists_yields (hne : cs ≠ []) :
    (codeLexeme cs).1 = .error ∨ ∃ w rest rule, cs = w ++ rest ∧ IsMunch w rest rule ∧
      Yields w rest rule.category (codeLexeme cs).1 (cs.take (codeLexeme cs).2) := by
  by_cases h : ∃ r ∈ rules, ∃ w, w ≠ [] ∧ w <+: cs ∧ r.pattern.Matches w
  · exact .inr ((byTable_codeLexeme hne).matched h)
  · left
    refine ((byTable_codeLexeme hne).unmatched ?_).1
    intro r hr w hw hstart hmatches
    exact h ⟨r, hr, w, hw, hstart, hmatches⟩

theorem Yields.kind_eq {w rest text : List Char} {k k' : Kind}
    (h : Yields w rest (.token k) k' text) : k' = k := by
  cases h <;> rfl

/-- Only errors and reserved words begin outside ASCII. -/
theorem codeLexeme_of_first (hc : 128 ≤ c.toNat) :
    (codeLexeme (c :: cs)).1 = .error ∨ ∃ w, (codeLexeme (c :: cs)).1 = .keyword w := by
  refine (exists_yields (List.cons_ne_nil c cs)).imp_right ?_
  rintro ⟨w, rest, rule, hcs, hmunch, hyields⟩
  obtain ⟨d, w, rfl⟩ := List.exists_cons_of_ne_nil hmunch.ne_nil
  obtain rfl : c = d := (List.cons.inj hcs).1
  rcases mem_rules hmunch.mem with hr | hr | hr
  · obtain ⟨k, -, rfl⟩ := List.mem_map.1 hr
    exact ⟨k, Yields.kind_eq hyields⟩
  · have hholds := holds_of_matches hmunch.hits List.mem_cons_self
    rw [holds_fixedRules hc rule hr] at hholds
    exact absurd hholds (by simp)
  · have hbegins := begins_of_matches hmunch.hits
    rw [begins_openRules hc rule hr] at hbegins
    exact absurd hbegins (by simp)

theorem category_of_last (hc : 128 ≤ c.toNat) {rule : Rule} (hr : rule ∈ rules) {w : List Char}
    (h : rule.pattern.Matches w) (hlast : w.getLast? = some c) :
    rule.category = .token .lineComment ∨ ∃ k ∈ cuttingWords,
      rule.category = .token (.keyword k) ∧ w.isEqv k.spelling.toList foldsTo = true := by
  rcases mem_rules hr with hr | hr | hr
  · obtain ⟨k, hk, rfl⟩ := List.mem_map.1 hr
    have heqv := matches_word_isEqv_iff.1 h
    exact .inr ⟨k, mem_cuttingWords hc hk heqv hlast, rfl, heqv⟩
  · have hholds := holds_of_matches h (List.mem_of_getLast? hlast)
    rw [holds_fixedRules hc rule hr] at hholds
    exact absurd hholds (by simp)
  · left
    by_contra hcategory
    have hends := ends_of_matches h hlast
    rw [ends_openRules hc rule hr hcategory] at hends
    exact absurd hends (by simp)

/-- A heredoc before another token ends with its label. -/
theorem toNat_lt_of_isHeredocBody {label front body rest : List Char} (hlabel : name.Matches label)
    (h : IsHeredocBody true label body rest) (hrest : rest ≠ [])
    (hlast : (front ++ body).getLast? = some c) : c.toNat < 128 := by
  obtain ⟨hne, hword⟩ := word_of_matches_name hlabel
  cases h with
  | unclosed => exact absurd rfl hrest
  | @closed lines indent =>
    have hsplit : front ++ (lines ++ (indent ++ label)) =
        front ++ lines ++ indent ++ label := by simp
    rw [hsplit, List.getLast?_append_of_ne_nil _ hne] at hlast
    have hc := toNat_of_isWordChar (hword c (List.mem_of_getLast? hlast))
    omega

theorem Yields.of_last (hc : 128 ≤ c.toNat) {w rest text tail : List Char} {rule : Rule} {k : Kind}
    (hmunch : IsMunch w rest rule) (h : Yields w rest rule.category k text)
    (hsplit : w ++ rest = text ++ tail) (htail : tail ≠ []) (hlast : text.getLast? = some c) :
    k = .lineComment ∨ ∃ kw ∈ cuttingWords, k = .keyword kw ∧
      text.isEqv kw.spelling.toList foldsTo = true := by
  have hmatched := category_of_last hc hmunch.mem hmunch.hits
  generalize hcategory : rule.category = category at h hmatched
  cases h with
  | docComment =>
    have hnone := hmatched hlast
    simp at hnone
  | blockComment =>
    have hnone := hmatched hlast
    simp at hnone
  | tag =>
    have hnone := hmatched hlast
    simp at hnone
  | plain => simpa using hmatched hlast
  | tagLine hbr =>
    rcases hbr with rfl | rfl
    · rw [List.getLast?_append_of_ne_nil _ (by simp)] at hlast
      cases hlast
      simp at hc
    · rw [List.getLast?_append_of_ne_nil _ (by simp)] at hlast
      cases hlast
      simp at hc
  | heredoc =>
    obtain ⟨label, hopener⟩ := exists_heredoc_rule_iff.1 ⟨rule, hmunch.mem, hcategory, hmunch.hits⟩
    rw [heredocLabel_of_isOpener hopener] at hlast hsplit
    obtain ⟨hne, hword⟩ := word_of_matches_name hopener.name
    have hbody := isHeredocBody_bodyLength hword hne true rest
    have hrest : rest.drop (heredocBodyLength label true rest) = tail := by
      rw [List.append_assoc] at hsplit
      have hcut := List.append_cancel_left hsplit
      exact List.append_cancel_left ((List.take_append_drop _ rest).trans hcut)
    rw [hrest] at hbody
    have hlt := toNat_lt_of_isHeredocBody hopener.name hbody htail hlast
    omega

/-- Before another token, only errors, comments to the end of the line and reserved words end
outside ASCII. -/
theorem codeLexeme_of_last (hc : 128 ≤ c.toNat)
    (hlast : (cs.take (codeLexeme cs).2).getLast? = some c)
    (hrest : cs.drop (codeLexeme cs).2 ≠ []) :
    (codeLexeme cs).1 = .error ∨ (codeLexeme cs).1 = .lineComment ∨
      ∃ w ∈ cuttingWords, (codeLexeme cs).1 = .keyword w ∧
        (cs.take (codeLexeme cs).2).isEqv w.spelling.toList foldsTo = true := by
  have hne : cs ≠ [] := by
    rintro rfl
    simp at hlast
  refine (exists_yields hne).imp_right ?_
  rintro ⟨w, rest, rule, hcs, hmunch, hyields⟩
  refine hyields.of_last hc hmunch ?_ hrest hlast
  rw [List.take_append_drop, hcs]

end Code

-- ---------------------------------------------------------------------------
-- Among the tokens of a source
-- ---------------------------------------------------------------------------

/-- A token that ends outside ASCII: an error, or a reserved word in which that character stands
for the last letter, which may count as a name. -/
def Token.EndsOutside (u : Token) : Prop :=
  (∃ c, u.text.toList.getLast? = some c ∧ 128 ≤ c.toNat) ∧
    (u.kind = .error ∨ ∃ w ∈ cuttingWords, (u.kind = .keyword w ∨ u.kind = .identifier) ∧
      u.text.toList.isEqv w.spelling.toList foldsTo = true)

section Place

variable {source : String} {before after : List Token} {t u : Token} {c : Char}

theorem kind_of_first (h : tokenize source = before ++ t :: after) (hc : 128 ≤ c.toNat)
    (hfirst : (textOf (t :: after)).head? = some c) :
    t.kind = .inlineHtml ∨ t.kind = .error ∨ t.kind = .identifier ∨ ∃ w, t.kind = .keyword w := by
  by_cases hhtml : t.kind = .inlineHtml
  · exact .inl hhtml
  · obtain ⟨hkind, -, -⟩ := codeLexeme_of_tokenize h hhtml
    obtain ⟨cs, hcs⟩ := List.head?_eq_some_iff.1 hfirst
    rw [hcs] at hkind
    rcases hkind with hkind | ⟨hkind, -⟩
    · rcases codeLexeme_of_first hc with herror | ⟨w, hw⟩
      · exact .inr (.inl (hkind.trans herror))
      · exact .inr (.inr (.inr ⟨w, hkind.trans hw⟩))
    · exact .inr (.inr (.inl hkind))

/-- Directly before a name, only errors and reserved words end outside ASCII. -/
theorem endsOutside_of_last (h : tokenize source = before ++ u :: t :: after)
    (ht : t.kind = .identifier) (hc : 128 ≤ c.toNat) (hlast : u.text.toList.getLast? = some c) :
    u.EndsOutside := by
  have hnext : tokenize source = (before ++ [u]) ++ t :: after := by simpa using h
  have hhtml : u.kind ≠ .inlineHtml := by
    intro hu
    have hopen := isOpenTag_of_tokenize hnext (by simp [hu]) (by simp [ht])
    rw [ht] at hopen
    exact absurd hopen (by simp [Kind.IsOpenTag])
  have hline : u.kind ≠ .lineComment := by
    intro hu
    have hblank := whitespace_behind_lineComment h hu t rfl
    rw [ht] at hblank
    exact absurd hblank (by simp)
  obtain ⟨hkind, htext, hrest⟩ := codeLexeme_of_tokenize h hhtml
  have hne : textOf (t :: after) ≠ [] := (lexeme_of_tokenize_eq hnext).1
  rw [htext] at hlast
  rw [hrest] at hne
  refine ⟨⟨c, by rw [htext]; exact hlast, hc⟩, ?_⟩
  rcases codeLexeme_of_last hc hlast hne with herror | hcomment | ⟨w, hw, hword, hspelled⟩
  · rw [herror] at hkind
    exact .inl (hkind.resolve_right (by simp))
  · rw [hcomment] at hkind
    exact absurd (hkind.resolve_right (by simp)) hline
  · rw [hword] at hkind
    rw [← htext] at hspelled
    exact .inr ⟨w, hw, hkind.imp_right And.left, hspelled⟩

end Place

end PhpImports
