import PhpImports.Proofs.Lexing.Parts

/-!
# PhpImports — comments to the end of the line

A comment that opens with `//` or `#` goes on over every character but a line break. A close
tag is no exception: the rule of the comment matches more than the rule of the tag, which is
not even tried inside the comment. So a `?>` on the line of a comment does not lead out of the
code, and the next line is read as code again. Only a `?>` that is a token of its own is
followed by markup.

## Results

* `codeLexeme_lineComment_iff` — where such a comment begins.
* `take_lineComment`           — how far it goes.
* `tokenize_lineComment`       — these comments, and close tags, among the tokens of a source.
-/

namespace PhpImports

open Pattern Rule

-- ---------------------------------------------------------------------------
-- The rules of these comments
-- ---------------------------------------------------------------------------

/-- The openings of a comment to the end of the line. -/
def lineMarks : List String :=
  ["//", "#"]

theorem filter_category_lineComment :
    rules.filter (fun r => r.category = .token .lineComment) =
      lineMarks.map fun mark => ⟨.token .lineComment, seq (exactly mark) restOfLine⟩ := rfl

theorem after_lineMarks_fixedRules : ∀ mark ∈ lineMarks, ∀ r ∈ fixedRules,
    (r.pattern.after mark.toList).isNever = true := by
  decide

theorem after_lineMarks_openRules : ∀ mark ∈ lineMarks, ∀ r ∈ openRules,
    (!(r.pattern.after mark.toList).isNever) = true → r.category = .token .lineComment := by
  decide

theorem not_beginsWord_lineMarks :
    ∀ mark ∈ lineMarks, (mark.toList.any fun c => !beginsWord c) = true := by
  decide

theorem lineMarks_ne_nil : ∀ mark ∈ lineMarks, mark.toList ≠ [] := by
  decide

theorem mem_lineMark {mark : String} (hmark : mark ∈ lineMarks) {c : Char} (hc : c ∈ mark.toList) :
    c = '/' ∨ c = '#' := by
  simp only [lineMarks, List.mem_cons, List.not_mem_nil, or_false] at hmark
  rcases hmark with rfl | rfl
  · exact .inl (by simpa using hc)
  · exact .inr (by simpa using hc)

/-- A text that begins like such a comment is one. -/
theorem category_of_matches_lineMark {r : Rule} (hr : r ∈ rules) {mark : String}
    (hmark : mark ∈ lineMarks) {w : List Char} (h : r.pattern.Matches (mark.toList ++ w)) :
    r.category = .token .lineComment := by
  have hmem := mem_openRules_of_matches hr (not_beginsWord_lineMarks mark hmark)
    (after_lineMarks_fixedRules mark hmark) h
  obtain ⟨hopen, hlive⟩ := List.mem_filter.1 hmem
  exact after_lineMarks_openRules mark hmark r hopen hlive

theorem exists_lineMark {r : Rule} (hr : r ∈ rules) (h : r.category = .token .lineComment) :
    ∃ mark ∈ lineMarks, r.pattern = seq (exactly mark) restOfLine := by
  have hmem : r ∈ rules.filter fun r => r.category = .token .lineComment :=
    List.mem_filter.2 ⟨hr, by simp [h]⟩
  rw [filter_category_lineComment] at hmem
  obtain ⟨mark, hmark, rfl⟩ := List.mem_map.1 hmem
  exact ⟨mark, hmark, rfl⟩

-- ---------------------------------------------------------------------------
-- The comment at the beginning of code
-- ---------------------------------------------------------------------------

/-- Code begins with such a comment exactly if it begins with one of the openings. -/
theorem codeLexeme_lineComment_iff {cs : List Char} :
    (codeLexeme cs).1 = .lineComment ↔ ∃ mark ∈ lineMarks, mark.toList <+: cs := by
  constructor
  · intro h
    obtain ⟨n, r, -, -, hr, hcategory, hmatches⟩ := exists_rule_of_codeLexeme rfl h
    obtain ⟨mark, hmark, hpattern⟩ := exists_lineMark hr hcategory
    rw [hpattern, matches_lineComment_iff] at hmatches
    obtain ⟨v, hv, -⟩ := hmatches
    have htake : mark.toList <+: cs.take n := ⟨v, hv.symm⟩
    exact ⟨mark, hmark, htake.trans (List.take_prefix n cs)⟩
  · intro ⟨mark, hmark, hstart⟩
    have hrule : ⟨.token .lineComment, seq (exactly mark) restOfLine⟩ ∈ rules := by
      have hmem := List.mem_map_of_mem (f := fun mark =>
        (⟨.token .lineComment, seq (exactly mark) restOfLine⟩ : Rule)) hmark
      rw [← filter_category_lineComment] at hmem
      exact (List.mem_filter.1 hmem).1
    have hopening : (seq (exactly mark) restOfLine).Matches mark.toList :=
      matches_lineComment_iff.2 ⟨[], by simp, by simp⟩
    obtain ⟨rule, n, hfound, hmunch, v, hv⟩ :=
      exists_isMunch_of_prefix hrule (lineMarks_ne_nil mark hmark) hstart hopening
    have hhits := hmunch.hits
    rw [← hv] at hhits
    rw [codeLexeme_of_longest hfound, category_of_matches_lineMark hmunch.mem hmark hhits]
    rfl

/-- It goes on to the next line break, or to the end of the text. -/
theorem take_lineComment {cs : List Char} (h : (codeLexeme cs).1 = .lineComment) :
    cs.take (codeLexeme cs).2 = cs.takeWhile (· ≠ '\n') := by
  cases hfound : (longestMatch cs).longest with
  | none =>
    rw [codeLexeme_of_none hfound] at h
    simp at h
  | some m =>
    obtain ⟨k, n⟩ := m
    have hlexeme := codeLexeme_of_longest hfound
    rw [hlexeme] at h
    have hk := eq_token_of_lexemeOf rfl h
    subst hk
    obtain ⟨rule, hcategory, hmunch⟩ := (longest_eq_iff.1 hfound).isMunch
    obtain ⟨mark, hmark, hpattern⟩ := exists_lineMark hmunch.mem hcategory
    have hhits := hmunch.hits
    rw [hpattern, matches_lineComment_iff] at hhits
    obtain ⟨v, hv, hline⟩ := hhits
    have hlength : (codeLexeme cs).2 = n := by rw [hlexeme]; rfl
    have hfree : ∀ c ∈ cs.take n, (c ≠ '\n' : Bool) = true := by
      intro c hc
      rw [hv, List.mem_append] at hc
      rcases hc with hc | hc
      · rcases mem_lineMark hmark hc with rfl | rfl <;> decide
      · exact decide_eq_true (hline c hc)
    have hstop : ∀ c ∈ (cs.drop n).head?, (c ≠ '\n' : Bool) = false := by
      intro c hc
      rw [decide_eq_false_iff_not]
      intro hne
      obtain ⟨rest, hrest⟩ := List.head?_eq_some_iff.1 hc
      -- one more character of the line would make a longer match
      have hlonger : rule.pattern.Matches (cs.take n ++ [c]) := by
        rw [hpattern, matches_lineComment_iff]
        refine ⟨v ++ [c], by rw [hv, List.append_assoc], ?_⟩
        intro d hd
        rcases List.mem_append.1 hd with hd | hd
        · exact hline d hd
        · rw [List.mem_singleton.1 hd]
          exact hne
      have hle := hmunch.longest rule hmunch.mem _ ⟨rest, by rw [hrest]; simp⟩ hlonger
      rw [List.length_append, List.length_singleton] at hle
      omega
    have hwhole := takeWhile_append_eq hfree hstop
    rw [List.take_append_drop] at hwhole
    rw [hlength, hwhole]

/-- A line break begins a blank. -/
theorem codeLexeme_lineBreak (cs : List Char) : (codeLexeme ('\n' :: cs)).1 = .whitespace := by
  have hlayout : (plus (one isLayout)).Matches ['\n'] := matches_plus_one_iff.2 ⟨rfl, by simp⟩
  have hrule : ⟨.token .whitespace, plus (one isLayout)⟩ ∈ rules := by simp [rules, openRules]
  obtain ⟨rule, n, hfound, hmunch, v, hv⟩ :=
    exists_isMunch_of_prefix hrule (by simp) ⟨cs, rfl⟩ hlayout
  have hhits := hmunch.hits
  rw [← hv, List.singleton_append] at hhits
  have hmem := mem_filter_begins hmunch.mem hhits (blank_mem_looseChars '\n' (by simp))
  rw [filter_begins_blanks '\n' (by simp), List.mem_singleton] at hmem
  show (codeLexeme (['\n'] ++ cs)).1 = .whitespace
  rw [codeLexeme_of_longest hfound, hmem]
  rfl

-- ---------------------------------------------------------------------------
-- Among the tokens of a source
-- ---------------------------------------------------------------------------

/-- A text without a line break before its close tag, by the line that it begins with. -/
theorem closeTag_infix_takeWhile_iff {cs : List Char} :
    ['?', '>'] <:+: cs.takeWhile (· ≠ '\n') ↔
      ∃ line rest, cs = line ++ '?' :: '>' :: rest ∧ '\n' ∉ line := by
  constructor
  · intro ⟨line, tail, hline⟩
    have hsplit := List.takeWhile_append_dropWhile (p := (· ≠ '\n')) (l := cs)
    refine ⟨line, tail ++ cs.dropWhile (· ≠ '\n'), ?_, ?_⟩
    · rw [← hline] at hsplit
      simpa using hsplit.symm
    · intro hmem
      have hall : '\n' ∈ cs.takeWhile (· ≠ '\n') := by
        rw [← hline]
        simp [hmem]
      simpa using List.mem_takeWhile_imp hall
  · intro ⟨line, rest, hcs, hline⟩
    have hfree : ∀ c ∈ line ++ ['?', '>'], (c ≠ '\n' : Bool) = true := by
      intro c hc
      rcases List.mem_append.1 hc with hc | hc
      · simpa using fun heq : c = '\n' => hline (heq ▸ hc)
      · simp only [List.mem_cons, List.not_mem_nil, or_false] at hc
        rcases hc with rfl | rfl <;> decide
    rw [hcs, show line ++ '?' :: '>' :: rest = (line ++ ['?', '>']) ++ rest by simp,
      List.takeWhile_append_of_pos hfree]
    exact ⟨line, rest.takeWhile (· ≠ '\n'), rfl⟩

section Place

variable {source : String} {before after : List Token} {t : Token}

theorem lineComment_of_tokenize (h : tokenize source = before ++ t :: after)
    (ht : t.kind = .lineComment) :
    ¬ LeadsToMarkup before ∧ (codeLexeme (textOf (t :: after))).1 = .lineComment ∧
      t.text.toList = (textOf (t :: after)).takeWhile (· ≠ '\n') := by
  obtain ⟨hne, k, n, hlexeme, hkind, htext, -⟩ := lexeme_of_tokenize_eq h
  have hk : k = .lineComment := by
    rw [ht] at hkind
    exact (hkind.resolve_right (by simp)).symm
  subst hk
  rcases lexeme_cases (Mode.behind .markup before) hne with ⟨hcode, hmode⟩ | ⟨-, hmarkup⟩
  · rw [hcode] at hlexeme
    have hcomment : (codeLexeme (textOf (t :: after))).1 = .lineComment :=
      congrArg Prod.fst hlexeme
    have hlength : (codeLexeme (textOf (t :: after))).2 = n := congrArg Prod.snd hlexeme
    refine ⟨?_, hcomment, ?_⟩
    · rw [← behind_eq_markup_iff]
      rcases hmode with hmode | hopens
      · rw [hmode]
        simp
      · have hopen := isOpenTag_codeLexeme hopens
        rw [hcomment] at hopen
        exact absurd hopen (by simp [Kind.IsOpenTag])
    · rw [htext, ← hlength, take_lineComment hcomment]
  · rw [hmarkup] at hlexeme
    exact absurd (congrArg Prod.fst hlexeme) (by simp)

/-- Behind a comment the line ends, and the code goes on with a blank. -/
theorem whitespace_behind_lineComment (h : tokenize source = before ++ t :: after)
    (ht : t.kind = .lineComment) : ∀ u ∈ after.head?, u.kind = .whitespace := by
  intro u hu
  obtain ⟨us, rfl⟩ := List.head?_eq_some_iff.1 hu
  have hcut : tokenize source = (before ++ [t]) ++ u :: us := by simpa using h
  have htext := (lineComment_of_tokenize h ht).2.2
  have hcode : ¬ LeadsToMarkup (before ++ [t]) := by
    intro hleads
    rcases hleads with hnil | ⟨b, hlast, hclose⟩
    · simp at hnil
    · rw [List.getLast?_concat, Option.some.injEq] at hlast
      rw [← hlast, ht] at hclose
      simp at hclose
  -- what the comment leaves begins with the line break that ends it
  have hsplit := List.takeWhile_append_dropWhile (p := (· ≠ '\n')) (l := textOf (t :: u :: us))
  rw [← htext] at hsplit
  have hrest : (textOf (t :: u :: us)).dropWhile (· ≠ '\n') = textOf (u :: us) :=
    List.append_cancel_left hsplit
  obtain ⟨hne, -⟩ := lexeme_of_tokenize_eq hcut
  obtain ⟨c, cs, hcs⟩ := List.exists_cons_of_ne_nil hne
  have hbreak : c = '\n' := by
    have hhead := List.head?_dropWhile_not (· ≠ '\n') (textOf (t :: u :: us))
    rw [hrest, hcs] at hhead
    simpa using hhead
  obtain ⟨hkind, -⟩ := codeLexeme_of_tokenize hcut (ne_inlineHtml_of_code hcut hcode)
  rw [hcs, hbreak, codeLexeme_lineBreak] at hkind
  exact hkind.resolve_right (by simp)

/-- Behind a close tag there is markup, up to the first open tag. -/
theorem markup_behind_closeTag (h : tokenize source = before ++ t :: after)
    (ht : t.kind = .closeTag) :
    after = [] ∨ ∃ u us, after = u :: us ∧
      (u.kind = .inlineHtml ∧ IsMarkup u.text.toList (textOf us) ∨
        u.kind.IsOpenTag ∧ OpenTagAhead (textOf (u :: us))) := by
  cases after with
  | nil => exact .inl rfl
  | cons u us =>
    have hcut : tokenize source = (before ++ [t]) ++ u :: us := by simpa using h
    refine .inr ⟨u, us, rfl, ?_⟩
    by_cases hu : u.kind = .inlineHtml
    · exact .inl ⟨hu, (isMarkup_of_tokenize hcut hu).2⟩
    · have hbefore : ∀ b ∈ (before ++ [t]).getLast?, b.kind = .inlineHtml ∨ b.kind = .closeTag := by
        intro b hb
        rw [List.getLast?_concat] at hb
        cases hb
        exact .inr ht
      exact .inr ⟨isOpenTag_of_tokenize hcut hbefore hu, openTagAhead_of_tokenize hcut hbefore hu⟩

end Place

/-- In code, and only there, `//` and `#` begin a comment. It takes the whole line, and so it has
a `?>` in it exactly if there is one on the line; the code then goes on with the next line. Only
behind a close tag that is a token is there markup, up to the first open tag. -/
theorem tokenize_lineComment {source : String} {before after : List Token} {t : Token}
    (h : tokenize source = before ++ t :: after) :
    (t.kind = .lineComment ↔ ¬ LeadsToMarkup before ∧
      (['/', '/'] <+: textOf (t :: after) ∨ ['#'] <+: textOf (t :: after))) ∧
    (t.kind = .lineComment →
      t.text.toList = (textOf (t :: after)).takeWhile (· ≠ '\n') ∧
      (['?', '>'] <:+: t.text.toList ↔
        ∃ line rest, textOf (t :: after) = line ++ '?' :: '>' :: rest ∧ '\n' ∉ line) ∧
      ∀ u ∈ after.head?, u.kind = .whitespace) ∧
    (t.kind = .closeTag → after = [] ∨ ∃ u us, after = u :: us ∧
      (u.kind = .inlineHtml ∧ IsMarkup u.text.toList (textOf us) ∨
        u.kind.IsOpenTag ∧ OpenTagAhead (textOf (u :: us)))) := by
  have hmarks : (∃ mark ∈ lineMarks, mark.toList <+: textOf (t :: after)) ↔
      ['/', '/'] <+: textOf (t :: after) ∨ ['#'] <+: textOf (t :: after) := by
    simp [lineMarks]
  refine ⟨?_, ?_, markup_behind_closeTag h⟩
  · rw [← hmarks, ← codeLexeme_lineComment_iff]
    constructor
    · intro ht
      obtain ⟨hcode, hcomment, -⟩ := lineComment_of_tokenize h ht
      exact ⟨hcode, hcomment⟩
    · intro ⟨hcode, hcomment⟩
      obtain ⟨hkind, -⟩ := codeLexeme_of_tokenize h (ne_inlineHtml_of_code h hcode)
      rw [hcomment] at hkind
      exact hkind.resolve_right (by simp)
  · intro ht
    have htext := (lineComment_of_tokenize h ht).2.2
    refine ⟨htext, ?_, whitespace_behind_lineComment h ht⟩
    rw [htext]
    exact closeTag_infix_takeWhile_iff

/-- A comment with a close tag on its line, and code on the next one. -/
theorem tokenize_lineComment_nextLine :
    tokenize "<?php #a?>\nnew A;" =
        [⟨.openTag, "<?php"⟩, ⟨.whitespace, " "⟩] ++ ⟨.lineComment, "#a?>"⟩ ::
          [⟨.whitespace, "\n"⟩, ⟨.keyword .newKw, "new"⟩, ⟨.whitespace, " "⟩, ⟨.identifier, "A"⟩,
            ⟨.semicolon, ";"⟩] ∧
      ¬ LeadsToMarkup [⟨.openTag, "<?php"⟩, ⟨.whitespace, " "⟩] ∧
      ['?', '>'] <:+: "#a?>".toList := by
  have htokens : tokenize "<?php #a?>\nnew A;" =
      [⟨.openTag, "<?php"⟩, ⟨.whitespace, " "⟩] ++ ⟨.lineComment, "#a?>"⟩ ::
        [⟨.whitespace, "\n"⟩, ⟨.keyword .newKw, "new"⟩, ⟨.whitespace, " "⟩, ⟨.identifier, "A"⟩,
          ⟨.semicolon, ";"⟩] := by
    decide +kernel
  obtain ⟨hwhere, hcomment, -⟩ := tokenize_lineComment htokens
  obtain ⟨-, hinfix, -⟩ := hcomment rfl
  exact ⟨htokens, (hwhere.1 rfl).1, hinfix.2 ⟨['#', 'a'], _, rfl, by decide⟩⟩

/-- A comment does not stop before a close tag: here the brace, which stands behind the tag, is
read as code. -/
theorem lineComment_over_closeTag :
    tokenize "<?php // ?>\n\x7b" =
        [⟨.openTag, "<?php"⟩, ⟨.whitespace, " "⟩, ⟨.lineComment, "// ?>"⟩, ⟨.whitespace, "\n"⟩,
          ⟨.lBrace, "\x7b"⟩] ∧
      ¬ ∀ t ∈ tokenize "<?php // ?>\n\x7b", t.kind = .lineComment →
        ¬ ['?', '>'] <:+: t.text.toList := by
  have htokens : tokenize "<?php // ?>\n\x7b" =
      [⟨.openTag, "<?php"⟩, ⟨.whitespace, " "⟩, ⟨.lineComment, "// ?>"⟩, ⟨.whitespace, "\n"⟩,
        ⟨.lBrace, "\x7b"⟩] := by
    decide +kernel
  refine ⟨htokens, ?_⟩
  rw [htokens]
  intro hall
  exact hall ⟨.lineComment, "// ?>"⟩ (by simp) rfl ⟨['/', '/', ' '], [], rfl⟩

end PhpImports
