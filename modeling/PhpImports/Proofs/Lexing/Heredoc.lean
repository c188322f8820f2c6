import PhpImports.Proofs.Lexing.Parts

/-!
# PhpImports — how far a heredoc goes

A heredoc or nowdoc is one token: its opening line, the body, and the label in the first line
of the body that closes it. Such a line has spaces and tabs, the label, and then a character
that does not carry the label on, or the end of the text. Nothing else in the body counts, so
quotes, braces and close tags are part of it; a body that no line closes takes the rest of the
source.

## Results

* `matches_heredocOpener_iff`      — opening lines, by the label that they name.
* `heredocLabel_of_isOpener`       — the label read off an opening line.
* `isHeredocBody_bodyLength`       — the body ends with the first line that closes it.
* `tokenize_heredoc`               — heredocs among the tokens of a source.
-/

namespace PhpImports

open Pattern Rule

-- ---------------------------------------------------------------------------
-- Opening lines
-- ---------------------------------------------------------------------------

/-- What may stand on both sides of a label. -/
def labelQuotes : List (List Char) :=
  [[], ['\x22'], ['\x27']]

/-- The line breaks that end an opening line. -/
def lineBreaks : List (List Char) :=
  [['\n'], ['\r', '\n']]

/-- The opening line `w` names the label. -/
structure IsOpener (label w : List Char) : Prop where
  name : name.Matches label
  shape : ∃ indent, ∃ quote ∈ labelQuotes, ∃ br ∈ lineBreaks, (∀ c ∈ indent, isIndent c = true) ∧
    w = "<<<".toList ++ (indent ++ (quote ++ label ++ quote ++ br))

theorem matches_enclosed_iff {mark : Char} {q : Pattern} {w : List Char} :
    (enclosed mark q).Matches w ↔ ∃ v, q.Matches v ∧ w = [mark] ++ v ++ [mark] := by
  simp only [enclosed, matches_seq_iff, matches_char_iff]
  constructor
  · rintro ⟨_, _, rfl, ⟨v, _, hv, rfl, rfl⟩, rfl⟩
    exact ⟨v, hv, by simp⟩
  · rintro ⟨v, hv, rfl⟩
    exact ⟨[mark], v ++ [mark], rfl, ⟨v, [mark], hv, rfl, rfl⟩, by simp⟩

theorem matches_quotedLabel_iff {w : List Char} :
    (alt name (alt (enclosed '\x22' name) (enclosed '\x27' name))).Matches w ↔
      ∃ label, name.Matches label ∧ ∃ quote ∈ labelQuotes, w = quote ++ label ++ quote := by
  simp only [matches_alt_iff, matches_enclosed_iff, labelQuotes, List.mem_cons, List.not_mem_nil,
    or_false, exists_eq_or_imp, exists_eq_left, List.nil_append, List.append_nil]
  constructor
  · rintro (h | ⟨label, h, rfl⟩ | ⟨label, h, rfl⟩)
    · exact ⟨w, h, .inl rfl⟩
    · exact ⟨label, h, .inr (.inl rfl)⟩
    · exact ⟨label, h, .inr (.inr rfl)⟩
  · rintro ⟨label, h, rfl | hw | hw⟩
    · exact .inl h
    · exact .inr (.inl ⟨label, h, hw⟩)
    · exact .inr (.inr ⟨label, h, hw⟩)

theorem matches_lineBreak_iff {w : List Char} :
    (seq (opt (char '\r')) (char '\n')).Matches w ↔ w ∈ lineBreaks := by
  simp only [opt, matches_seq_iff, matches_alt_iff, matches_char_iff, matches_empty_iff,
    lineBreaks, List.mem_cons, List.not_mem_nil, or_false]
  constructor
  · rintro ⟨_, _, rfl | rfl, rfl, rfl⟩
    · exact .inr rfl
    · exact .inl rfl
  · rintro (rfl | rfl)
    · exact ⟨[], ['\n'], .inr rfl, rfl, rfl⟩
    · exact ⟨['\r'], ['\n'], .inl rfl, rfl, rfl⟩

/-- The rule for heredocs accepts the opening lines. -/
theorem matches_heredocOpener_iff {w : List Char} :
    heredocOpener.Matches w ↔ ∃ label, IsOpener label w := by
  constructor
  · intro h
    obtain ⟨_, _, hmarks, hline, rfl⟩ := matches_seq_iff.1 h
    obtain ⟨indent, _, hindent, htail, rfl⟩ := matches_seq_iff.1 hline
    obtain ⟨_, br, hquoted, hbr, rfl⟩ := matches_seq_iff.1 htail
    obtain ⟨label, hname, quote, hquote, rfl⟩ := matches_quotedLabel_iff.1 hquoted
    rw [matches_exactly_iff.1 hmarks]
    exact ⟨label, hname, indent, quote, hquote, br, matches_lineBreak_iff.1 hbr,
      matches_star_one_iff.1 hindent, rfl⟩
  · rintro ⟨label, hname, indent, quote, hquote, br, hbr, hindent, rfl⟩
    exact .seq (matches_exactly_iff.2 rfl) <| .seq (matches_star_one_iff.2 hindent) <|
      .seq (matches_quotedLabel_iff.2 ⟨label, hname, quote, hquote, rfl⟩)
        (matches_lineBreak_iff.2 hbr)

-- ---------------------------------------------------------------------------
-- The label of an opening line
-- ---------------------------------------------------------------------------

/-- A quotation mark around a label. -/
def isQuote (c : Char) : Bool :=
  c == '\x22' || c == '\x27'

/-- A text without the characters of a class at its two ends. -/
def trimEnds (p : Char → Bool) (cs : List Char) : List Char :=
  (cs.dropWhile p).rdropWhile p

/-- A text without the heredoc marks that it begins with. -/
def dropMarks : List Char → List Char
  | '<' :: '<' :: '<' :: cs => dropMarks cs
  | cs => cs

/-- What is left of an opening line without its marks, then its blanks, then its quotes. -/
def trimmedLabel (opener : List Char) : List Char :=
  trimEnds isQuote (trimEnds isBlank (dropMarks opener))

theorem trimEnds_append {p : Char → Bool} {a b d : List Char} (ha : ∀ c ∈ a, p c = true)
    (hb : b ≠ []) (hkept : ∀ c ∈ b, p c = false) (hd : ∀ c ∈ d, p c = true) :
    trimEnds p (a ++ (b ++ d)) = b := by
  have hfirst : ∀ c ∈ (b ++ d).head?, p c = false := by
    rw [List.head?_append_of_ne_nil _ hb]
    intro c hc
    exact hkept c (List.mem_of_head? hc)
  have hlast : ∀ c ∈ b.reverse.head?, p c = false := by
    intro c hc
    exact hkept c (List.mem_reverse.1 (List.mem_of_head? hc))
  have hback : ∀ c ∈ d.reverse, p c = true := by
    intro c hc
    exact hd c (List.mem_reverse.1 hc)
  rw [trimEnds, dropWhile_append_eq ha hfirst, List.rdropWhile, List.reverse_append,
    dropWhile_append_eq hback hlast, List.reverse_reverse]

theorem dropMarks_append {cs : List Char} (h : ∀ c ∈ cs.head?, c ≠ '<') :
    dropMarks ("<<<".toList ++ cs) = cs := by
  show dropMarks cs = cs
  cases cs with
  | nil => rfl
  | cons c cs =>
    rw [dropMarks]
    rintro _ ⟨⟩
    exact h '<' rfl rfl

theorem word_of_matches_name {w : List Char} (h : name.Matches w) :
    w ≠ [] ∧ ∀ c ∈ w, isWordChar c = true := by
  cases w with
  | nil => exact absurd (nullable_iff.2 h) (by decide)
  | cons c w =>
    obtain ⟨hc, hw⟩ := matches_name_iff.1 h
    exact ⟨by simp, List.forall_mem_cons.2 ⟨isWordChar_of_isWordStart hc, hw⟩⟩

theorem classes_of_isIndent {c : Char} (h : isIndent c = true) :
    isWordChar c = false ∧ isBlank c = true ∧ c ≠ '<' := by
  simp only [isIndent, Bool.or_eq_true, beq_iff_eq] at h
  rcases h with rfl | rfl <;> decide

theorem classes_of_isWordChar {c : Char} (h : isWordChar c = true) :
    isIndent c = false ∧ isBlank c = false ∧ isQuote c = false ∧ c ≠ '<' := by
  have hrange := toNat_of_isWordChar h
  have hother (d : Char) (hd : isWordChar d = false) : c ≠ d := by
    intro heq
    rw [heq, hd] at h
    exact absurd h (by simp)
  refine ⟨?_, ?_, ?_, hother _ (by decide)⟩
  · simp [isIndent, hother ' ' (by decide), hother '\t' (by decide)]
  · have houtside : ∀ r ∈ blankRanges, r.2 < 48 ∨ 122 < r.1 := by decide
    rw [isBlank, List.any_eq_false]
    intro r hr
    have hr := houtside r hr
    simp only [Bool.and_eq_true, decide_eq_true_eq]
    omega
  · simp [isQuote, hother '\x22' (by decide), hother '\x27' (by decide)]

theorem labelQuotes_chars : ∀ quote ∈ labelQuotes, ∀ c ∈ quote,
    isWordChar c = false ∧ isBlank c = false ∧ isQuote c = true ∧ c ≠ '<' := by
  intro quote hquote
  apply forall_mem_of_all
  revert quote
  decide

theorem lineBreaks_chars : ∀ br ∈ lineBreaks, ∀ c ∈ br,
    isWordChar c = false ∧ isBlank c = true ∧ c ≠ '<' := by
  intro br hbr
  apply forall_mem_of_all
  revert br
  decide

section Label

variable {label w : List Char}

theorem heredocLabel_of_isOpener (h : IsOpener label w) : heredocLabel w = label := by
  obtain ⟨hne, hword⟩ := word_of_matches_name h.name
  obtain ⟨indent, quote, hquote, br, hbr, hindent, rfl⟩ := h.shape
  have hfront : ∀ c ∈ "<<<".toList ++ indent ++ quote, (!isWordChar c) = true := by
    intro c hc
    rw [List.mem_append, List.mem_append] at hc
    rcases hc with (hc | hc) | hc
    · rw [List.eq_of_mem_replicate (n := 3) hc]
      decide
    · rw [(classes_of_isIndent (hindent c hc)).1]
      rfl
    · rw [(labelQuotes_chars quote hquote c hc).1]
      rfl
  have hlabel : ∀ c ∈ (label ++ (quote ++ br)).head?, (!isWordChar c) = false := by
    rw [List.head?_append_of_ne_nil _ hne]
    intro c hc
    rw [hword c (List.mem_of_head? hc)]
    rfl
  have hback : ∀ c ∈ (quote ++ br).head?, isWordChar c = false := by
    intro c hc
    rcases List.mem_append.1 (List.mem_of_head? hc) with hc | hc
    · exact (labelQuotes_chars quote hquote c hc).1
    · exact (lineBreaks_chars br hbr c hc).1
  have hsplit : "<<<".toList ++ (indent ++ (quote ++ label ++ quote ++ br)) =
      "<<<".toList ++ indent ++ quote ++ (label ++ (quote ++ br)) := by simp
  rw [heredocLabel, hsplit, dropWhile_append_eq hfront hlabel, takeWhile_append_eq hword hback]

/-- Trimming an opening line leaves the label as well. -/
theorem trimmedLabel_of_isOpener (h : IsOpener label w) : trimmedLabel w = label := by
  obtain ⟨hne, hword⟩ := word_of_matches_name h.name
  obtain ⟨indent, quote, hquote, br, hbr, hindent, rfl⟩ := h.shape
  have hmarks : ∀ c ∈ (indent ++ (quote ++ label ++ quote ++ br)).head?, c ≠ '<' := by
    intro c hc
    have hmem := List.mem_of_head? hc
    simp only [List.mem_append] at hmem
    rcases hmem with hmem | ((hmem | hmem) | hmem) | hmem
    · exact (classes_of_isIndent (hindent c hmem)).2.2
    · exact (labelQuotes_chars quote hquote c hmem).2.2.2
    · exact (classes_of_isWordChar (hword c hmem)).2.2.2
    · exact (labelQuotes_chars quote hquote c hmem).2.2.2
    · exact (lineBreaks_chars br hbr c hmem).2.2
  have hindented : ∀ c ∈ indent, isBlank c = true := by
    intro c hc
    exact (classes_of_isIndent (hindent c hc)).2.1
  have hkept : ∀ c ∈ quote ++ label ++ quote, isBlank c = false := by
    intro c hc
    rw [List.mem_append, List.mem_append] at hc
    rcases hc with (hc | hc) | hc
    · exact (labelQuotes_chars quote hquote c hc).2.1
    · exact (classes_of_isWordChar (hword c hc)).2.1
    · exact (labelQuotes_chars quote hquote c hc).2.1
  have hbreak : ∀ c ∈ br, isBlank c = true := by
    intro c hc
    exact (lineBreaks_chars br hbr c hc).2.1
  have hmark : ∀ c ∈ quote, isQuote c = true := by
    intro c hc
    exact (labelQuotes_chars quote hquote c hc).2.2.1
  have hplain : ∀ c ∈ label, isQuote c = false := by
    intro c hc
    exact (classes_of_isWordChar (hword c hc)).2.2.1
  rw [trimmedLabel, dropMarks_append hmarks, trimEnds_append hindented (by simp [hne]) hkept hbreak,
    List.append_assoc, trimEnds_append hmark hne hplain hmark]

end Label

-- ---------------------------------------------------------------------------
-- The body
-- ---------------------------------------------------------------------------

/-- A line begins behind `lines`; `lineStart` says whether one begins where they do. -/
def BeginsLine (lineStart : Bool) (lines : List Char) : Prop :=
  lines = [] ∧ lineStart = true ∨ lines.getLast? = some '\n'

/-- Behind `lines` the text has a line that closes: spaces and tabs, then the label, and nothing
that carries it on. -/
def ClosesBehind (lineStart : Bool) (label text lines : List Char) : Prop :=
  BeginsLine lineStart lines ∧ ∃ indent rest, (∀ c ∈ indent, isIndent c = true) ∧
    (∀ c ∈ rest.head?, isLabelChar c = false) ∧ text = lines ++ (indent ++ (label ++ rest))

/-- The body of a heredoc, with what follows it: it ends with the label in the first line that
closes, or takes the whole text if no line does. -/
inductive IsHeredocBody (lineStart : Bool) (label : List Char) : List Char → List Char → Prop
  | closed {lines indent rest : List Char} : BeginsLine lineStart lines →
      (∀ c ∈ indent, isIndent c = true) → (∀ c ∈ rest.head?, isLabelChar c = false) →
      (∀ other, ClosesBehind lineStart label (lines ++ (indent ++ (label ++ rest))) other →
        lines.length ≤ other.length) →
      IsHeredocBody lineStart label (lines ++ (indent ++ label)) rest
  | unclosed {text : List Char} : (∀ lines, ¬ ClosesBehind lineStart label text lines) →
      IsHeredocBody lineStart label text []

theorem beginsLine_cons_iff {lineStart : Bool} {c : Char} {lines : List Char} :
    BeginsLine lineStart (c :: lines) ↔ BeginsLine (c == '\n') lines := by
  cases lines with
  | nil => simp [BeginsLine]
  | cons d lines => simp [BeginsLine, List.getLast?_cons_cons]

theorem closesBehind_cons_iff {lineStart : Bool} {label cs lines : List Char} {c : Char} :
    ClosesBehind lineStart label (c :: cs) (c :: lines) ↔
      ClosesBehind (c == '\n') label cs lines := by
  simp only [ClosesBehind, beginsLine_cons_iff, List.cons_append, List.cons.injEq, true_and]

section Body

variable {label : List Char} {lineStart : Bool}

/-- A line closes exactly if the search says so, and then through the label. -/
theorem closingLabel?_eq_some_iff (hword : ∀ c ∈ label, isWordChar c = true) (hne : label ≠ [])
    {cs : List Char} {n : Nat} :
    closingLabel? label cs = some n ↔ ∃ indent rest, (∀ c ∈ indent, isIndent c = true) ∧
      (∀ c ∈ rest.head?, isLabelChar c = false) ∧ cs = indent ++ (label ++ rest) ∧
        n = (indent ++ label).length := by
  constructor
  · intro h
    unfold closingLabel? at h
    dsimp only at h
    split at h
    · next hclose =>
      cases h
      rw [Bool.and_eq_true, List.isPrefixOf_iff_prefix] at hclose
      obtain ⟨⟨rest, hrest⟩, hstop⟩ := hclose
      rw [← hrest, List.drop_left] at hstop
      refine ⟨cs.takeWhile isIndent, rest, ?_, ?_, ?_, by simp⟩
      · intro c hc
        exact List.mem_takeWhile_imp hc
      · intro c hc
        rw [Option.mem_def] at hc
        simpa [hc] using hstop
      · rw [hrest, List.takeWhile_append_dropWhile]
    · simp at h
  · intro ⟨indent, rest, hindent, hrest, hcs, hn⟩
    have hhead : ∀ c ∈ (label ++ rest).head?, isIndent c = false := by
      rw [List.head?_append_of_ne_nil _ hne]
      intro c hc
      exact (classes_of_isWordChar (hword c (List.mem_of_head? hc))).1
    have hstop : rest.head?.any isLabelChar = false := by
      cases hfirst : rest.head? with
      | none => rfl
      | some c => exact hrest c hfirst
    rw [closingLabel?, hcs, dropWhile_append_eq hindent hhead, takeWhile_append_eq hindent hhead]
    simp [hstop, hn]

theorem closesBehind_nil_iff (hword : ∀ c ∈ label, isWordChar c = true) (hne : label ≠ [])
    {cs : List Char} :
    ClosesBehind lineStart label cs [] ↔
      lineStart = true ∧ (closingLabel? label cs).isSome = true := by
  rw [Option.isSome_iff_exists]
  simp only [closingLabel?_eq_some_iff hword hne]
  simp [ClosesBehind, BeginsLine]

/-- What follows the first character of a body is the body of what follows it, unless a line
closes before. -/
theorem IsHeredocBody.cons {c : Char} {body rest : List Char}
    (h : IsHeredocBody (c == '\n') label body rest)
    (hopen : ¬ ClosesBehind lineStart label (c :: (body ++ rest)) []) :
    IsHeredocBody lineStart label (c :: body) rest := by
  cases h with
  | @closed lines indent _ hlines hindent hrest hfirst =>
    rw [← List.cons_append]
    refine .closed (beginsLine_cons_iff.2 hlines) hindent hrest ?_
    intro other hother
    cases other with
    | nil =>
      refine absurd hother ?_
      simpa using hopen
    | cons d other =>
      obtain rfl : d = c := by
        obtain ⟨-, _, _, -, -, htext⟩ := hother
        exact (List.cons.inj htext).1.symm
      have hle := hfirst other (closesBehind_cons_iff.1 hother)
      exact Nat.succ_le_succ hle
  | unclosed hnone =>
    refine .unclosed fun lines hlines => ?_
    cases lines with
    | nil => exact hopen (by simpa using hlines)
    | cons d lines =>
      obtain rfl : d = c := by
        obtain ⟨-, _, _, -, -, htext⟩ := hlines
        exact (List.cons.inj htext).1.symm
      exact hnone lines (closesBehind_cons_iff.1 hlines)

/-- The search over a text finds the body at its beginning. -/
theorem isHeredocBody_bodyLength (hword : ∀ c ∈ label, isWordChar c = true) (hne : label ≠ [])
    (lineStart : Bool) (cs : List Char) :
    IsHeredocBody lineStart label (cs.take (heredocBodyLength label lineStart cs))
      (cs.drop (heredocBodyLength label lineStart cs)) := by
  induction cs generalizing lineStart with
  | nil =>
    refine .unclosed fun lines hlines => ?_
    obtain ⟨-, indent, rest, -, -, htext⟩ := hlines
    simp [hne] at htext
  | cons c cs ih =>
    rw [heredocBodyLength]
    split
    · next n hn =>
      have hstart : lineStart = true := by
        by_contra hnot
        simp [hnot] at hn
      rw [if_pos hstart, closingLabel?_eq_some_iff hword hne] at hn
      obtain ⟨indent, rest, hindent, hrest, htext, rfl⟩ := hn
      rw [htext, ← List.append_assoc, List.take_left, List.drop_left]
      refine .closed (.inl ⟨rfl, hstart⟩) hindent hrest fun other _ => Nat.zero_le _
    · next hn =>
      rw [List.take_succ_cons, List.drop_succ_cons]
      refine (ih (c == '\n')).cons ?_
      rw [List.take_append_drop, closesBehind_nil_iff hword hne]
      rintro ⟨hstart, hsome⟩
      rw [if_pos hstart] at hn
      rw [hn] at hsome
      exact absurd hsome (by simp)

end Body

-- ---------------------------------------------------------------------------
-- The token
-- ---------------------------------------------------------------------------

theorem filter_category_heredoc :
    rules.filter (fun r => r.category = .heredoc) = [⟨.heredoc, heredocOpener⟩] := rfl

theorem after_marks_fixedRules :
    ∀ r ∈ fixedRules, (r.pattern.after ['<', '<', '<']).isNever = true := by
  decide

theorem filter_after_marks_openRules :
    openRules.filter (fun r => !(r.pattern.after ['<', '<', '<']).isNever) =
      [⟨.heredoc, heredocOpener⟩] := rfl

theorem eq_of_matches_marks {r : Rule} (hr : r ∈ rules) {w : List Char}
    (h : r.pattern.Matches (['<', '<', '<'] ++ w)) : r = ⟨.heredoc, heredocOpener⟩ := by
  have hmem := mem_openRules_of_matches hr (by decide) after_marks_fixedRules h
  rw [filter_after_marks_openRules] at hmem
  exact List.mem_singleton.1 hmem

theorem exists_heredoc_rule_iff {w : List Char} :
    (∃ r ∈ rules, r.category = .heredoc ∧ r.pattern.Matches w) ↔ ∃ label, IsOpener label w := by
  rw [← matches_heredocOpener_iff]
  constructor
  · intro ⟨r, hr, hcategory, hmatches⟩
    have hmem : r ∈ rules.filter fun r => r.category = .heredoc :=
      List.mem_filter.2 ⟨hr, by simp [hcategory]⟩
    rw [filter_category_heredoc, List.mem_singleton] at hmem
    rwa [hmem] at hmatches
  · intro hmatches
    have hmem : ⟨.heredoc, heredocOpener⟩ ∈ rules.filter fun r => r.category = .heredoc := by
      rw [filter_category_heredoc]
      exact List.mem_singleton.2 rfl
    exact ⟨_, (List.mem_filter.1 hmem).1, rfl, hmatches⟩

section Opener

variable {label label' w e : List Char}

/-- The line break of an opening line is the only one in it. -/
theorem IsOpener.exists_concat (h : IsOpener label w) :
    ∃ line, w = line ++ ['\n'] ∧ '\n' ∉ line := by
  obtain ⟨-, hword⟩ := word_of_matches_name h.name
  obtain ⟨indent, quote, hquote, br, hbr, hindent, rfl⟩ := h.shape
  have hline : '\n' ∉ "<<<".toList ++ (indent ++ (quote ++ label ++ quote)) := by
    simp only [List.mem_append, not_or]
    refine ⟨by decide, fun hc => ?_, ⟨fun hc => ?_, fun hc => ?_⟩, fun hc => ?_⟩
    · exact absurd (hindent _ hc) (by decide)
    · exact absurd (labelQuotes_chars quote hquote _ hc).2.1 (by decide)
    · exact absurd (hword _ hc) (by decide)
    · exact absurd (labelQuotes_chars quote hquote _ hc).2.1 (by decide)
  simp only [lineBreaks, List.mem_cons, List.not_mem_nil, or_false] at hbr
  rcases hbr with rfl | rfl
  · exact ⟨_, by simp, hline⟩
  · refine ⟨"<<<".toList ++ (indent ++ (quote ++ label ++ quote)) ++ ['\r'], by simp, ?_⟩
    rw [List.mem_append, not_or]
    exact ⟨hline, by decide⟩

theorem IsOpener.eq_nil (h : IsOpener label w) (h' : IsOpener label' (w ++ e)) : e = [] := by
  obtain ⟨line, rfl, -⟩ := h.exists_concat
  obtain ⟨line', hline', hfree⟩ := h'.exists_concat
  by_contra hne
  have hinit := congrArg List.dropLast hline'
  rw [List.dropLast_append_of_ne_nil hne, List.dropLast_concat] at hinit
  refine hfree ?_
  rw [← hinit]
  simp

theorem longest_opener (h : IsOpener label w) (text : List Char) :
    (longestMatch (w ++ text)).longest = some (.heredoc, w.length) := by
  obtain ⟨indent, quote, -, br, -, -, hw⟩ := h.shape
  obtain ⟨r, hr, -, hmatches⟩ := exists_heredoc_rule_iff.2 ⟨label, h⟩
  obtain ⟨rule, n, hfound, hmunch, e, he⟩ :=
    exists_isMunch_of_prefix hr (by simp [hw]) (List.prefix_append w text) hmatches
  have hhits := hmunch.hits
  rw [← he] at hhits
  -- nothing but an opening line begins like one, and none goes on over another
  have hrule : rule = ⟨.heredoc, heredocOpener⟩ := by
    rw [hw, List.append_assoc] at hhits
    exact eq_of_matches_marks hmunch.mem hhits
  rw [hrule] at hhits
  obtain ⟨label', hlonger⟩ := matches_heredocOpener_iff.1 hhits
  rw [h.eq_nil hlonger, List.append_nil] at he
  have hn : n = w.length := by
    have hle := (longest_eq_iff.1 hfound).2.1
    rw [he, List.length_take, Nat.min_eq_left hle]
  rw [hfound, hrule, hn]

theorem codeLexeme_opener (h : IsOpener label w) (text : List Char) :
    codeLexeme (w ++ text) =
      (.constantString, w.length + heredocBodyLength label true text) := by
  rw [codeLexeme_of_longest (longest_opener h text), lexemeOf, List.take_left, List.drop_left,
    heredocLabel_of_isOpener h]

end Opener

/-- The rule for heredocs accepts the opening lines, and the label that is read off one is the
label that it names. The token goes on through the label in the first line that closes, or to the
end of the source if none does. -/
theorem tokenize_heredoc (w : List Char) :
    ((∃ r ∈ rules, r.category = .heredoc ∧ r.pattern.Matches w) ↔ ∃ label, IsOpener label w) ∧
    ∀ label, IsOpener label w → heredocLabel w = label ∧ trimmedLabel w = label ∧
      ∀ text, ∃ body rest, text = body ++ rest ∧ IsHeredocBody true label body rest ∧
        codeLexeme (w ++ text) = (.constantString, (w ++ body).length) ∧
        ∀ source before t after, tokenize source = before ++ t :: after →
          ¬ LeadsToMarkup before → textOf (t :: after) = w ++ text →
            t = ⟨.constantString, String.ofList (w ++ body)⟩ ∧ textOf after = rest := by
  refine ⟨exists_heredoc_rule_iff, fun label h => ?_⟩
  refine ⟨heredocLabel_of_isOpener h, trimmedLabel_of_isOpener h, fun text => ?_⟩
  obtain ⟨hne, hword⟩ := word_of_matches_name h.name
  have hbody := isHeredocBody_bodyLength hword hne true text
  have hlexeme : codeLexeme (w ++ text) =
      (.constantString, (w ++ text.take (heredocBodyLength label true text)).length) := by
    rw [codeLexeme_opener h, List.length_append, List.length_take,
      Nat.min_eq_left (heredocBodyLength_le label true text)]
  refine ⟨_, _, (List.take_append_drop _ text).symm, hbody, hlexeme, ?_⟩
  intro source before t after htokens hcode htext
  obtain ⟨hkind, htake, hdrop⟩ :=
    codeLexeme_of_tokenize htokens (ne_inlineHtml_of_code htokens hcode)
  have hsplit : w ++ text = w ++ text.take (heredocBodyLength label true text) ++
      text.drop (heredocBodyLength label true text) := by simp
  rw [htext, hlexeme] at hkind htake hdrop
  rw [hsplit, List.take_left] at htake
  rw [hsplit, List.drop_left] at hdrop
  refine ⟨?_, hdrop⟩
  have hstring : t.kind = .constantString := hkind.resolve_right (by simp)
  rw [← htake, String.ofList_toList, ← hstring]

/-- A nowdoc with a close tag, a quote and two lines in it that do not close, one that carries
the label on and one that has something else before it. -/
theorem tokenize_heredoc_indented :
    tokenize "<?php f(<<< 'E'\r\n?>\x22\n E1\nxE\n\tE);" =
        [⟨.openTag, "<?php"⟩, ⟨.whitespace, " "⟩, ⟨.identifier, "f"⟩, ⟨.lParen, "("⟩] ++
          ⟨.constantString, "<<< 'E'\r\n?>\x22\n E1\nxE\n\tE"⟩ ::
            [⟨.rParen, ")"⟩, ⟨.semicolon, ";"⟩] ∧
      heredocLabel "<<< 'E'\r\n".toList = "E".toList ∧
      ∃ body rest, "?>\x22\n E1\nxE\n\tE);".toList = body ++ rest ∧
        IsHeredocBody true "E".toList body rest ∧
        "<<< 'E'\r\n?>\x22\n E1\nxE\n\tE".toList = "<<< 'E'\r\n".toList ++ body := by
  have htokens : tokenize "<?php f(<<< 'E'\r\n?>\x22\n E1\nxE\n\tE);" =
      [⟨.openTag, "<?php"⟩, ⟨.whitespace, " "⟩, ⟨.identifier, "f"⟩, ⟨.lParen, "("⟩] ++
        ⟨.constantString, "<<< 'E'\r\n?>\x22\n E1\nxE\n\tE"⟩ ::
          [⟨.rParen, ")"⟩, ⟨.semicolon, ";"⟩] := by
    decide +kernel
  have hopener : IsOpener "E".toList "<<< 'E'\r\n".toList :=
    ⟨matches_name_iff.2 ⟨by decide, by simp⟩, [' '], ['\x27'], by simp [labelQuotes],
      ['\r', '\n'], by simp [lineBreaks], by simp [isIndent], rfl⟩
  obtain ⟨hlabel, -, htext⟩ := (tokenize_heredoc "<<< 'E'\r\n".toList).2 _ hopener
  obtain ⟨body, rest, hsplit, hbody, -, htoken⟩ := htext "?>\x22\n E1\nxE\n\tE);".toList
  obtain ⟨ht, -⟩ := htoken _ _ _ _ htokens (by simp [LeadsToMarkup]) rfl
  refine ⟨htokens, hlabel, body, rest, hsplit, hbody, ?_⟩
  exact (congrArg (·.text.toList) ht).trans String.toList_ofList

end PhpImports
