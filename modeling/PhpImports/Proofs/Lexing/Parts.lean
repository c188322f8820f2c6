import PhpImports.Proofs.Lexing.MaximalMunch

/-!
# PhpImports — markup and code

Text outside the tags and code inside them take turns. The reader of markup and the table of
rules each have an open tag of their own: a text with a condition on what comes behind it, and
a folded literal. Here they are shown to agree wherever markup ends, and from that it follows
how the tokens of any source fall into parts.

## Results

* `OpenTagAhead`, `IsMarkup`, `IsCloseTag` — the texts at which the parts meet.
* `isOpenTag_codeLexeme` — code that begins with an open tag begins with its token.
* `isMarkup_of_tokenize`, `isOpenTag_of_tokenize`, `isCloseTag_of_tokenize` — one token of a source.
* `tokenize_parts` — all tokens of a source, part by part.
-/

namespace PhpImports

open Pattern Rule

-- ---------------------------------------------------------------------------
-- Where markup and code meet
-- ---------------------------------------------------------------------------

/-- A text begins with an open tag: `<?=`, or `<?php` in any letter case before a blank character
or the end of the text. -/
inductive OpenTagAhead : List Char → Prop
  | echo (rest : List Char) : OpenTagAhead ('<' :: '?' :: '=' :: rest)
  | php {p h q : Char} {rest : List Char} : [p, h, q].map Char.toLower = ['p', 'h', 'p'] →
      (∀ c ∈ rest.head?, isBlank c = true) → OpenTagAhead ('<' :: '?' :: p :: h :: q :: rest)

/-- The text `html` before `rest` is markup: it ends at the first open tag, or where the source
ends if there is none. -/
structure IsMarkup (html rest : List Char) : Prop where
  stop : rest = [] ∨ OpenTagAhead rest
  first : ∀ u v, html = u ++ v → v ≠ [] → ¬ OpenTagAhead (v ++ rest)

/-- The text of a close tag before `rest`: `?>` with the line break behind it, if there is one. -/
inductive IsCloseTag : List Char → List Char → Prop
  | line {br : List Char} (rest : List Char) : br = ['\n'] ∨ br = ['\r', '\n'] →
      IsCloseTag (['?', '>'] ++ br) rest
  | bare {rest : List Char} : ¬ ['\n'] <+: rest → ¬ ['\r', '\n'] <+: rest →
      IsCloseTag ['?', '>'] rest

/-- The kinds of the two open tags. -/
def Kind.IsOpenTag (k : Kind) : Prop :=
  k = .openTag ∨ k = .openTagWithEcho

theorem opensCode_iff_openTagAhead {cs : List Char} : opensCode cs = true ↔ OpenTagAhead cs := by
  rw [opensCode_iff]
  constructor
  · rintro (⟨r, rfl⟩ | ⟨p, h, q, r, rfl, hp, hh, hq, hr⟩)
    · exact .echo r
    · refine .php (by simp [hp, hh, hq]) ?_
      simpa [Option.all_eq_true] using hr
  · intro h
    cases h with
    | echo r => exact .inl ⟨r, rfl⟩
    | @php p h q r htag hr =>
      simp only [List.map_cons, List.map_nil, List.cons.injEq, and_true] at htag
      refine .inr ⟨p, h, q, r, rfl, htag.1, htag.2.1, htag.2.2, ?_⟩
      simpa [Option.all_eq_true] using hr

theorem isMarkup_markupLength (cs : List Char) :
    IsMarkup (cs.take (markupLength cs)) (cs.drop (markupLength cs)) := by
  refine ⟨(drop_markupLength cs).imp_right opensCode_iff_openTagAhead.1, ?_⟩
  induction cs with
  | nil =>
    intro u v huv hv
    simp_all [markupLength]
  | cons c cs ih =>
    unfold markupLength
    split
    · intro u v huv hv
      simp_all
    · next hc =>
      intro u v huv hv
      cases u with
      | nil =>
        rw [List.nil_append] at huv
        rw [← huv, List.take_append_drop, ← opensCode_iff_openTagAhead]
        exact hc
      | cons d u =>
        rw [List.take_succ_cons, List.cons_append, List.cons.injEq] at huv
        exact ih u v huv.2 hv

-- ---------------------------------------------------------------------------
-- The tags in the table
-- ---------------------------------------------------------------------------

theorem filter_category_inlineHtml :
    rules.filter (fun r => r.category = .token .inlineHtml) = [] := rfl

theorem filter_category_closeTag :
    rules.filter (fun r => r.category = .token .closeTag) = [literal .closeTag "?>"] := rfl

theorem filter_after_tag_fixedRules :
    fixedRules.filter (fun r => !(r.pattern.after ['<', '?']).isNever) =
      [folded .openTag "<?php", literal .openTagWithEcho "<?="] := rfl

theorem after_tag_openRules :
    ∀ r ∈ openRules, (r.pattern.after ['<', '?']).isNever = true := by
  decide

/-- A text that begins with `<?` is an open tag. -/
theorem isOpenTag_of_matches {r : Rule} (hr : r ∈ rules) {w : List Char}
    (h : r.pattern.Matches ('<' :: '?' :: w)) :
    r.category = .token .openTag ∨ r.category = .token .openTagWithEcho := by
  have hlive : (r.pattern.after ['<', '?']).isNever = false := isNever_after_eq_false h
  rcases mem_rules hr with hr | hr | hr
  · have hword := beginsWord_of_keywords hr h List.mem_cons_self
    exact absurd hword (by decide)
  · have hmem : r ∈ fixedRules.filter fun r => !(r.pattern.after ['<', '?']).isNever :=
      List.mem_filter.2 ⟨hr, by rw [hlive]; rfl⟩
    rw [filter_after_tag_fixedRules, List.mem_pair] at hmem
    exact hmem.imp (by rintro rfl; rfl) (by rintro rfl; rfl)
  · rw [after_tag_openRules r hr] at hlive
    exact absurd hlive (by simp)

/-- A rule of the table matches the whole of an open tag. -/
theorem exists_matches_of_openTagAhead {cs : List Char} (h : OpenTagAhead cs) :
    ∃ r ∈ rules, ∃ w, '<' :: '?' :: w <+: cs ∧ r.pattern.Matches ('<' :: '?' :: w) := by
  cases h with
  | echo rest =>
    refine ⟨literal .openTagWithEcho "<?=", by simp [rules, literalRules, tags], ['='], ?_, ?_⟩
    · exact ⟨rest, rfl⟩
    · exact matches_exactly_iff.2 rfl
  | @php p h q rest htag _ =>
    simp only [List.map_cons, List.map_nil, List.cons.injEq, and_true] at htag
    refine ⟨folded .openTag "<?php", by simp [rules, literalRules, tags], [p, h, q], ?_, ?_⟩
    · exact ⟨rest, rfl⟩
    · show Pattern.Matches (word ("<?php".toList.map fun l c => foldsTo c l)) _
      rw [matches_word_isEqv_iff]
      simp [List.isEqv, foldsTo, htag]

/-- Code that begins with an open tag begins with the token of one. -/
theorem isOpenTag_codeLexeme {cs : List Char} (h : OpenTagAhead cs) :
    (codeLexeme cs).1.IsOpenTag := by
  obtain ⟨r, hr, w, hw, hmatches⟩ := exists_matches_of_openTagAhead h
  -- the longest match goes at least as far as the tag, so that it begins with `<?` too
  obtain ⟨rule, n, hfound, hmunch, v, hv⟩ := exists_isMunch_of_prefix hr (by simp) hw hmatches
  have hhits := hmunch.hits
  rw [← hv, List.cons_append, List.cons_append] at hhits
  rw [codeLexeme_of_longest hfound]
  rcases isOpenTag_of_matches hmunch.mem hhits with hcategory | hcategory
  · rw [hcategory]
    exact .inl rfl
  · rw [hcategory]
    exact .inr rfl

/-- No token of code is markup. -/
theorem codeLexeme_ne_inlineHtml (cs : List Char) : (codeLexeme cs).1 ≠ .inlineHtml := by
  intro hkind
  obtain ⟨n, r, -, -, hr, hcategory, -⟩ := exists_rule_of_codeLexeme rfl hkind
  have hmem : r ∈ rules.filter fun r => r.category = .token .inlineHtml :=
    List.mem_filter.2 ⟨hr, by simp [hcategory]⟩
  rw [filter_category_inlineHtml] at hmem
  exact absurd hmem (by simp)

/-- A close tag in code is `?>`, with the line break behind it. -/
theorem isCloseTag_codeLexeme {cs : List Char} (hkind : (codeLexeme cs).1 = .closeTag) :
    IsCloseTag (cs.take (codeLexeme cs).2) (cs.drop (codeLexeme cs).2) := by
  obtain ⟨n, r, -, hlexeme, hr, hcategory, hmatches⟩ := exists_rule_of_codeLexeme rfl hkind
  have hmem : r ∈ rules.filter fun r => r.category = .token .closeTag :=
    List.mem_filter.2 ⟨hr, by simp [hcategory]⟩
  rw [filter_category_closeTag, List.mem_singleton] at hmem
  subst hmem
  have htag : cs.take n = ['?', '>'] := matches_exactly_iff.1 hmatches
  have hlength : (codeLexeme cs).2 = n + lineBreakLength (cs.drop n) := by rw [hlexeme]; rfl
  rw [hlength, List.take_add, htag, ← List.drop_drop]
  rcases lineBreakLength_cases (cs.drop n) with ⟨br, hbr, -, htake⟩ | ⟨hlf, hcrlf, htake⟩
  · rw [htake]
    exact .line _ hbr
  · have hsame := List.take_append_drop (lineBreakLength (cs.drop n)) (cs.drop n)
    rw [htake, List.nil_append] at hsame
    rw [htake, List.append_nil, hsame]
    exact .bare hlf hcrlf

/-- A token is read as code, inside the tags or where one stands, or else it is markup. -/
theorem lexeme_cases (mode : Mode) {cs : List Char} (hne : cs ≠ []) :
    lexeme mode cs = codeLexeme cs ∧ (mode = .code ∨ OpenTagAhead cs) ∨
      mode = .markup ∧ lexeme mode cs = (.inlineHtml, markupLength cs) := by
  cases mode with
  | code => exact .inl ⟨rfl, .inl rfl⟩
  | markup =>
    cases hlength : markupLength cs with
    | zero =>
      have hopens := (drop_markupLength cs).resolve_left (by simpa [hlength] using hne)
      rw [hlength, List.drop_zero] at hopens
      exact .inl ⟨lexeme_eq_codeLexeme (.inr hopens), .inr (opensCode_iff_openTagAhead.1 hopens)⟩
    | succ n =>
      refine .inr ⟨rfl, ?_⟩
      rw [lexeme, hlength]
      rfl

-- ---------------------------------------------------------------------------
-- One token of a source
-- ---------------------------------------------------------------------------

/-- The text of tokens, character by character. -/
def textOf (ts : List Token) : List Char :=
  ts.flatMap (·.text.toList)

/-- A source begins outside the tags, and a close tag leads there. -/
def LeadsToMarkup (before : List Token) : Prop :=
  before = [] ∨ ∃ t, before.getLast? = some t ∧ t.kind = .closeTag

theorem behind_eq_markup_iff {before : List Token} :
    Mode.behind .markup before = .markup ↔ LeadsToMarkup before := by
  cases hlast : before.getLast? with
  | none =>
    rw [List.getLast?_eq_none_iff] at hlast
    subst hlast
    exact ⟨fun _ => .inl rfl, fun _ => rfl⟩
  | some t =>
    have hne : before ≠ [] := by
      rintro rfl
      simp at hlast
    rw [Mode.behind, hlast]
    simp [Mode.after, LeadsToMarkup, hne, hlast]

/-- A token of a source is read from the text at its place, in the mode that the tokens before it
lead to. -/
theorem lexeme_of_tokenize_eq {source : String} {before after : List Token} {t : Token}
    (h : tokenize source = before ++ t :: after) :
    textOf (t :: after) ≠ [] ∧
      ∃ k n, lexeme (Mode.behind .markup before) (textOf (t :: after)) = (k, n) ∧
        (t.kind = k ∨ t.kind = .identifier ∧ ∃ w, k = .keyword w) ∧
        t.text.toList = (textOf (t :: after)).take n ∧
        textOf after = (textOf (t :: after)).drop n := by
  obtain ⟨us, u, vs, hlexemes, rfl, rfl, rfl⟩ := exists_of_resolveNamesAfter_eq h
  have hafter (p : Preceding) : textOf (resolveNamesAfter p vs) = textOf vs :=
    flatMap_text_resolveNamesAfter p vs
  have hrest (k : Kind) (p : Preceding) :
      textOf (⟨k, u.text⟩ :: resolveNamesAfter p vs) = textOf (u :: vs) :=
    congrArg (u.text.toList ++ ·) (hafter p)
  rw [behind_resolveNamesAfter, hafter, hrest]
  have hsource : source.toList = textOf us ++ textOf (u :: vs) := by
    have hcover := flatMap_text_lexemesFrom .markup 0 source.toList
    rw [← lexemes, hlexemes, List.flatMap_append] at hcover
    exact hcover.symm
  obtain ⟨hne, hu⟩ := lexeme_of_lexemesFrom_eq hlexemes hsource
  obtain ⟨⟨k, n⟩, hfound⟩ : ∃ m, lexeme (Mode.behind .markup us) (textOf (u :: vs)) = m := ⟨_, rfl⟩
  rw [hfound] at hu
  have hk : u.kind = k := congrArg Token.kind hu
  have htake : u.text.toList = (textOf (u :: vs)).take n := by
    have htext := congrArg (·.text.toList) hu
    rwa [String.toList_ofList] at htext
  refine ⟨hne, k, n, hfound, hk ▸ Preceding.resolve_cases _ u.kind, htake, ?_⟩
  -- what `u` leaves of the text are the texts of the tokens behind it
  have hsplit := List.take_append_drop n (textOf (u :: vs))
  rw [← htake] at hsplit
  exact (List.append_cancel_left hsplit).symm

section Place

variable {source : String} {before after : List Token} {t : Token}

/-- Markup stands at the beginning or behind a close tag, and goes on to the first open tag. -/
theorem isMarkup_of_tokenize (h : tokenize source = before ++ t :: after)
    (ht : t.kind = .inlineHtml) :
    LeadsToMarkup before ∧ IsMarkup t.text.toList (textOf after) := by
  obtain ⟨hne, k, n, hlexeme, hkind, htext, hafter⟩ := lexeme_of_tokenize_eq h
  have hk : k = .inlineHtml := by
    rw [ht] at hkind
    exact (hkind.resolve_right (by simp)).symm
  rcases lexeme_cases (Mode.behind .markup before) hne with ⟨hcode, -⟩ | ⟨hmode, hmarkup⟩
  · rw [hcode] at hlexeme
    exact absurd ((congrArg Prod.fst hlexeme).trans hk) (codeLexeme_ne_inlineHtml _)
  · have hn : markupLength (textOf (t :: after)) = n :=
      congrArg Prod.snd (hmarkup.symm.trans hlexeme)
    rw [htext, hafter, ← hn]
    exact ⟨behind_eq_markup_iff.1 hmode, isMarkup_markupLength _⟩

theorem ne_inlineHtml_of_code (h : tokenize source = before ++ t :: after)
    (hcode : ¬ LeadsToMarkup before) : t.kind ≠ .inlineHtml := by
  intro ht
  exact hcode (isMarkup_of_tokenize h ht).1

/-- What is not markup is read as code, by the rules of the table. -/
theorem codeLexeme_of_tokenize (h : tokenize source = before ++ t :: after)
    (ht : t.kind ≠ .inlineHtml) :
    (t.kind = (codeLexeme (textOf (t :: after))).1 ∨
      t.kind = .identifier ∧ ∃ w, (codeLexeme (textOf (t :: after))).1 = .keyword w) ∧
    t.text.toList = (textOf (t :: after)).take (codeLexeme (textOf (t :: after))).2 ∧
    textOf after = (textOf (t :: after)).drop (codeLexeme (textOf (t :: after))).2 := by
  obtain ⟨hne, k, n, hlexeme, hkind, htext, hafter⟩ := lexeme_of_tokenize_eq h
  rcases lexeme_cases (Mode.behind .markup before) hne with ⟨hcode, -⟩ | ⟨-, hmarkup⟩
  · rw [hcode] at hlexeme
    rw [hlexeme]
    exact ⟨hkind, htext, hafter⟩
  · rw [hmarkup] at hlexeme
    cases hlexeme
    exact absurd (hkind.resolve_right (by simp)) ht

/-- Behind markup, and where markup could stand but does not, the text has an open tag. -/
theorem openTagAhead_of_tokenize (h : tokenize source = before ++ t :: after)
    (hbefore : ∀ b ∈ before.getLast?, b.kind = .inlineHtml ∨ b.kind = .closeTag)
    (ht : t.kind ≠ .inlineHtml) : OpenTagAhead (textOf (t :: after)) := by
  obtain ⟨hne, k, n, hlexeme, hkind, -, -⟩ := lexeme_of_tokenize_eq h
  rcases lexeme_cases (Mode.behind .markup before) hne with ⟨-, hmode | hopens⟩ | ⟨-, hmarkup⟩
  · -- the token before is neither missing nor a close tag, so it is markup
    have hnot : ¬ LeadsToMarkup before := by
      rw [← behind_eq_markup_iff, hmode]
      nofun
    rcases List.eq_nil_or_concat before with rfl | ⟨front, b, rfl⟩
    · exact absurd (.inl rfl) hnot
    · have hb : b.kind = .inlineHtml :=
        (hbefore b (by simp)).resolve_right fun hclose => hnot (.inr ⟨b, by simp, hclose⟩)
      have hcut : tokenize source = front ++ b :: (t :: after) := by simpa using h
      exact (isMarkup_of_tokenize hcut hb).2.stop.resolve_left hne
  · exact hopens
  · rw [hmarkup] at hlexeme
    cases hlexeme
    exact absurd (hkind.resolve_right (by simp)) ht

/-- There the token is an open tag as well. -/
theorem isOpenTag_of_tokenize (h : tokenize source = before ++ t :: after)
    (hbefore : ∀ b ∈ before.getLast?, b.kind = .inlineHtml ∨ b.kind = .closeTag)
    (ht : t.kind ≠ .inlineHtml) : t.kind.IsOpenTag := by
  have hopens := openTagAhead_of_tokenize h hbefore ht
  obtain ⟨-, k, n, hlexeme, hkind, -, -⟩ := lexeme_of_tokenize_eq h
  rw [lexeme_eq_codeLexeme (.inr (opensCode_iff_openTagAhead.2 hopens))] at hlexeme
  have hopen := isOpenTag_codeLexeme hopens
  rw [hlexeme] at hopen
  rcases hkind with hkind | ⟨-, w, rfl⟩
  · rwa [hkind]
  · exact absurd hopen (by simp [Kind.IsOpenTag])

/-- A close tag is `?>`, with the line break behind it. -/
theorem isCloseTag_of_tokenize (h : tokenize source = before ++ t :: after)
    (ht : t.kind = .closeTag) : IsCloseTag t.text.toList (textOf after) := by
  obtain ⟨hne, k, n, hlexeme, hkind, htext, hafter⟩ := lexeme_of_tokenize_eq h
  have hk : k = .closeTag := by
    rw [ht] at hkind
    exact (hkind.resolve_right (by simp)).symm
  subst hk
  rcases lexeme_cases (Mode.behind .markup before) hne with ⟨hcode, -⟩ | ⟨-, hmarkup⟩
  · rw [hcode] at hlexeme
    have htag := isCloseTag_codeLexeme (congrArg Prod.fst hlexeme)
    rwa [hlexeme, ← htext, ← hafter] at htag
  · rw [hmarkup] at hlexeme
    exact absurd (congrArg Prod.fst hlexeme) (by simp)

end Place

-- ---------------------------------------------------------------------------
-- The parts of a source
-- ---------------------------------------------------------------------------

/-- The tokens `part` are a part of a source, between the tokens `before` and `after`. -/
inductive IsPart (before after : List Token) : List Token → Prop
  /-- Markup at the beginning or behind a close tag, up to the first open tag or the end. -/
  | markup {html : Token} : html.kind = .inlineHtml → LeadsToMarkup before →
      IsMarkup html.text.toList (textOf after) → IsPart before after [html]
  /-- Code from an open tag through the first close tag or to the end, at the beginning, behind
  markup or behind a close tag. -/
  | code {opener : Token} {ts : List Token} : opener.kind.IsOpenTag →
      (∀ b ∈ before.getLast?, b.kind = .inlineHtml ∨ b.kind = .closeTag) →
      (∀ t ∈ opener :: ts, t.kind ≠ .inlineHtml) →
      (∀ t ∈ (opener :: ts).dropLast, t.kind ≠ .closeTag) →
      (after = [] ∨ ∃ t, (opener :: ts).getLast? = some t ∧ t.kind = .closeTag) →
      IsPart before after (opener :: ts)

/-- Behind a part there is code or markup again: its last token is markup or a close tag. -/
theorem IsPart.last {before after part : List Token} (h : IsPart before after part)
    (hafter : after ≠ []) :
    ∀ b ∈ (before ++ part).getLast?, b.kind = .inlineHtml ∨ b.kind = .closeTag := by
  intro b hb
  cases h with
  | @markup html hkind =>
    rw [List.getLast?_append, List.getLast?_singleton, Option.some_or] at hb
    cases hb
    exact .inl hkind
  | @code opener ts _ _ _ _ hlast =>
    obtain ⟨t, ht, hkind⟩ := hlast.resolve_left hafter
    rw [List.getLast?_append, ht, Option.some_or] at hb
    cases hb
    exact .inr hkind

section Split

variable {source : String} {before ts : List Token} {t : Token}

/-- Tokens of which only the last may be a close tag have no markup behind the first. -/
theorem ne_inlineHtml_of_run {run after : List Token}
    (h : tokenize source = before ++ t :: (run ++ after)) (ht : t.kind ≠ .inlineHtml)
    (hrun : ∀ u ∈ (t :: run).dropLast, u.kind ≠ .closeTag) :
    ∀ u ∈ t :: run, u.kind ≠ .inlineHtml := by
  intro u hu hkind
  obtain ⟨p, q, hcut⟩ := List.append_of_mem hu
  rcases List.eq_nil_or_concat p with rfl | ⟨p, b, rfl⟩
  · rw [List.nil_append, List.cons.injEq] at hcut
    exact ht (hcut.1 ▸ hkind)
  · -- the token before it would be a close tag inside the run
    have hplace : tokenize source = (before ++ (p ++ [b])) ++ u :: (q ++ after) := by
      rw [h, ← List.cons_append, hcut]
      simp
    have hclose : b.kind = .closeTag := by
      rcases (isMarkup_of_tokenize hplace hkind).1 with hnil | ⟨b', hlast, hclose⟩
      · simp at hnil
      · simp at hlast
        rwa [hlast]
    refine hrun b ?_ hclose
    rw [hcut, List.dropLast_append_cons]
    simp

/-- A part begins at every token at which one can begin. -/
theorem exists_part (h : tokenize source = before ++ t :: ts)
    (hbefore : ∀ b ∈ before.getLast?, b.kind = .inlineHtml ∨ b.kind = .closeTag) :
    ∃ inner after, ts = inner ++ after ∧ IsPart before after (t :: inner) := by
  by_cases ht : t.kind = .inlineHtml
  · obtain ⟨hleads, hmarkup⟩ := isMarkup_of_tokenize h ht
    exact ⟨[], ts, rfl, .markup ht hleads hmarkup⟩
  have hopen := isOpenTag_of_tokenize h hbefore ht
  have htag : t.kind ≠ .closeTag := by rcases hopen with hopen | hopen <;> rw [hopen] <;> nofun
  obtain ⟨inner, hinner⟩ : ∃ inner, ts.takeWhile (·.kind ≠ .closeTag) = inner := ⟨_, rfl⟩
  have hplain : ∀ u ∈ t :: inner, u.kind ≠ .closeTag := by
    rintro u (_ | ⟨_, hu⟩)
    · exact htag
    · rw [← hinner] at hu
      simpa using List.mem_takeWhile_imp hu
  have hsplit := List.takeWhile_append_dropWhile (p := (·.kind ≠ .closeTag)) (l := ts)
  rw [hinner] at hsplit
  cases hrest : ts.dropWhile (·.kind ≠ .closeTag) with
  | nil =>
    -- nothing closes the code
    rw [hrest, List.append_nil] at hsplit
    subst hsplit
    have hrun : ∀ u ∈ (t :: inner).dropLast, u.kind ≠ .closeTag :=
      fun u hu => hplain u (List.mem_of_mem_dropLast hu)
    have hcut : tokenize source = before ++ t :: (inner ++ []) := by rwa [List.append_nil]
    have hhtml := ne_inlineHtml_of_run hcut ht hrun
    exact ⟨inner, [], (List.append_nil inner).symm, .code hopen hbefore hhtml hrun (.inl rfl)⟩
  | cons c after =>
    have hclose : c.kind = .closeTag := by
      have hhead := List.head?_dropWhile_not (·.kind ≠ .closeTag) ts
      rw [hrest] at hhead
      simpa using hhead
    have hts : ts = (inner ++ [c]) ++ after := by
      rw [← hsplit, hrest, List.append_assoc]
      rfl
    have hrun : ∀ u ∈ (t :: (inner ++ [c])).dropLast, u.kind ≠ .closeTag := by
      rw [← List.cons_append, List.dropLast_concat]
      exact hplain
    have hhtml := ne_inlineHtml_of_run (by rwa [← hts]) ht hrun
    refine ⟨inner ++ [c], after, hts, .code hopen hbefore hhtml hrun (.inr ⟨c, ?_, hclose⟩)⟩
    rw [← List.cons_append, List.getLast?_concat]

/-- All parts from a place on at which one can begin. -/
theorem exists_parts (h : tokenize source = before ++ ts)
    (hbefore : ts ≠ [] → ∀ b ∈ before.getLast?, b.kind = .inlineHtml ∨ b.kind = .closeTag) :
    ∃ parts : List (List Token), ts = parts.flatten ∧
      ∀ front part back, parts = front ++ part :: back →
        IsPart (before ++ front.flatten) back.flatten part := by
  induction hn : ts.length using Nat.strongRecOn generalizing before ts with
  | ind n ih =>
    cases ts with
    | nil => exact ⟨[], rfl, by simp⟩
    | cons t ts =>
      obtain ⟨inner, after, rfl, hpart⟩ := exists_part h (hbefore (by simp))
      have hcut : tokenize source = (before ++ t :: inner) ++ after := by rw [h]; simp
      have hlt : after.length < n := by
        rw [← hn, List.length_cons, List.length_append]
        omega
      obtain ⟨parts, rfl, hparts⟩ := ih after.length hlt hcut (hpart.last ·) rfl
      refine ⟨(t :: inner) :: parts, rfl, ?_⟩
      intro front part back heq
      cases front with
      | nil =>
        rw [List.nil_append, List.cons.injEq] at heq
        obtain ⟨rfl, rfl⟩ := heq
        rwa [List.flatten_nil, List.append_nil]
      | cons p front =>
        rw [List.cons_append, List.cons.injEq] at heq
        obtain ⟨rfl, hback⟩ := heq
        rw [List.flatten_cons, ← List.append_assoc]
        exact hparts front part back hback

end Split

/-- Markup and code take turns. The tokens of a source fall into parts: markup, which is one token
up to the first open tag, and code from an open tag through the first close tag. No markup follows
markup, and each close tag takes the line break behind it. -/
theorem tokenize_parts (source : String) :
    textOf (tokenize source) = source.toList ∧
    (∃ parts : List (List Token), tokenize source = parts.flatten ∧
      ∀ front part back, parts = front ++ part :: back →
        IsPart front.flatten back.flatten part) ∧
    (∀ before t u after, tokenize source = before ++ t :: u :: after →
      t.kind = .inlineHtml → u.kind ≠ .inlineHtml) ∧
    (∀ before t after, tokenize source = before ++ t :: after → t.kind = .closeTag →
      IsCloseTag t.text.toList (textOf after)) := by
  refine ⟨?_, ?_, ?_, fun before t after h ht => isCloseTag_of_tokenize h ht⟩
  · have hsource := congrArg String.toList (source_ofSource source)
    rwa [TokenSeq.source, toList_sourceText] at hsource
  · have hstart : tokenize source = [] ++ tokenize source := rfl
    obtain ⟨parts, hflatten, hparts⟩ := exists_parts hstart (by simp)
    exact ⟨parts, hflatten, hparts⟩
  · intro before t u after h ht hu
    have hcut : tokenize source = (before ++ [t]) ++ u :: after := by simpa using h
    rcases (isMarkup_of_tokenize hcut hu).1 with hnil | ⟨b, hlast, hclose⟩
    · simp at hnil
    · rw [List.getLast?_concat, Option.some.injEq] at hlast
      rw [← hlast, ht] at hclose
      simp at hclose

/-- Markup that begins like an open tag, a tag in capital letters, and two line breaks behind a
close tag. -/
theorem tokenize_parts_nearMiss :
    tokenize "<?phpx<?PHP a?>\n\n<?=1" =
        [⟨.inlineHtml, "<?phpx"⟩, ⟨.openTag, "<?PHP"⟩, ⟨.whitespace, " "⟩, ⟨.identifier, "a"⟩,
          ⟨.closeTag, "?>\n"⟩, ⟨.inlineHtml, "\n"⟩, ⟨.openTagWithEcho, "<?="⟩, ⟨.lNumber, "1"⟩] ∧
      IsCloseTag "?>\n".toList "\n<?=1".toList ∧
      ∃ parts : List (List Token), tokenize "<?phpx<?PHP a?>\n\n<?=1" = parts.flatten ∧
        ∀ front part back, parts = front ++ part :: back →
          IsPart front.flatten back.flatten part := by
  have htokens : tokenize "<?phpx<?PHP a?>\n\n<?=1" =
      [⟨.inlineHtml, "<?phpx"⟩, ⟨.openTag, "<?PHP"⟩, ⟨.whitespace, " "⟩, ⟨.identifier, "a"⟩] ++
        ⟨.closeTag, "?>\n"⟩ ::
          [⟨.inlineHtml, "\n"⟩, ⟨.openTagWithEcho, "<?="⟩, ⟨.lNumber, "1"⟩] := by
    decide +kernel
  obtain ⟨-, hparts, -, hclose⟩ := tokenize_parts "<?phpx<?PHP a?>\n\n<?=1"
  exact ⟨htokens, hclose _ _ _ htokens rfl, hparts⟩

end PhpImports
