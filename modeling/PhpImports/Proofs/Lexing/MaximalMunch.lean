import PhpImports.Proofs.Lexing.Cover
import PhpImports.Proofs.Lexing.Locality

/-!
# PhpImports — tokens of code by the table

Wherever code is read, the token is the longest text that some rule of the table matches,
and a rule for fixed texts has the last word if there is one. A comment then documents or
does not, a heredoc goes on through its body, and a close tag takes a line break with it.
Where no rule matches anything the token is an error. All this is said of the texts that the
rules stand for; how the lexer follows the rules does not come into it.

## Results

* `IsMunch`, `Yields`, `ByTable` — the longest match, its token, and both together.
* `exists_isMunch_of_prefix`      — the longest match where some match is known.
* `byTable_codeLexeme`            — the token at the beginning of code.
* `lexeme_of_lexemesFrom_eq`      — the token at any place of a text.
* `tokenize_byTable`              — every token of code of a source.
-/

namespace PhpImports

-- ---------------------------------------------------------------------------
-- The token that the table asks for
-- ---------------------------------------------------------------------------

/-- Of the text `w ++ rest` the longest beginning that a rule of the table matches is `w`, and it
is not empty. One of the rules that match it is `rule`: a rule for fixed texts, if there is one. -/
structure IsMunch (w rest : List Char) (rule : Rule) : Prop where
  mem : rule ∈ rules
  ne_nil : w ≠ []
  hits : rule.pattern.Matches w
  longest : ∀ r ∈ rules, ∀ v, v <+: w ++ rest → r.pattern.Matches v → v.length ≤ w.length
  literal_first : (∃ r ∈ literalRules, r.pattern.Matches w) → rule ∈ literalRules

/-- Kind and text of the token for a match `w` of a category, with `rest` after it. -/
inductive Yields (w rest : List Char) : Category → Kind → List Char → Prop
  | docComment : "/**".toList <+: w → 4 < (String.ofList w).utf8ByteSize →
      Yields w rest .comment .docComment w
  | blockComment : ¬ ("/**".toList <+: w ∧ 4 < (String.ofList w).utf8ByteSize) →
      Yields w rest .comment .blockComment w
  | heredoc : Yields w rest .heredoc .constantString
      (w ++ rest.take (heredocBodyLength (heredocLabel w) true rest))
  /-- A close tag with the line break behind it. -/
  | tagLine {br : List Char} : br = ['\n'] ∨ br = ['\r', '\n'] → br <+: rest →
      Yields w rest (.token .closeTag) .closeTag (w ++ br)
  | tag : ¬ ['\n'] <+: rest → ¬ ['\r', '\n'] <+: rest →
      Yields w rest (.token .closeTag) .closeTag w
  | plain {k : Kind} : k ≠ .closeTag → Yields w rest (.token k) k w

/-- Kind and text of a token are those that the table asks for at the beginning of `cs`. -/
structure ByTable (cs : List Char) (k : Kind) (text : List Char) : Prop where
  matched : (∃ r ∈ rules, ∃ w, w ≠ [] ∧ w <+: cs ∧ r.pattern.Matches w) →
    ∃ w rest rule, cs = w ++ rest ∧ IsMunch w rest rule ∧ Yields w rest rule.category k text
  unmatched : (∀ r ∈ rules, ∀ w, w ≠ [] → w <+: cs → ¬ r.pattern.Matches w) →
    k = .error ∧ text ≠ [] ∧ text <+: cs

-- ---------------------------------------------------------------------------
-- The longest match
-- ---------------------------------------------------------------------------

theorem IsLongest.isMunch {cs : List Char} {k : Category} {n : Nat}
    (h : IsLongest cs (some (k, n))) :
    ∃ rule, rule.category = k ∧ IsMunch (cs.take n) (cs.drop n) rule := by
  obtain ⟨hpos, hle, hk, hlonger⟩ := h
  obtain ⟨rule, hmem, hcategory, hits, hliteral⟩ := exists_preferred_rule hk
  have hlength : (cs.take n).length = n := by
    rw [List.length_take]
    omega
  refine ⟨rule, hcategory, hmem, ?_, hits, ?_, hliteral⟩
  · rw [← List.length_pos_iff, hlength]
    exact hpos
  · intro r hr v hv hmatches
    rw [List.take_append_drop] at hv
    rw [hlength]
    by_contra hlt
    -- a longer match would have a category
    have hnone := hlonger v.length (by omega) hv.length_le
    rw [← List.prefix_iff_eq_take.1 hv] at hnone
    exact categoryOf?_ne_none hr hmatches hnone

theorem IsLongest.not_matches {cs : List Char} (h : IsLongest cs none) {r : Rule} (hr : r ∈ rules)
    {w : List Char} (hne : w ≠ []) (hw : w <+: cs) : ¬ r.pattern.Matches w := by
  intro hmatches
  have hnone := h w.length (List.length_pos_iff.2 hne) hw.length_le
  rw [← List.prefix_iff_eq_take.1 hw] at hnone
  exact categoryOf?_ne_none hr hmatches hnone

/-- Where a rule matches a text, the longest match begins with that text. -/
theorem exists_isMunch_of_prefix {cs w : List Char} {r : Rule} (hr : r ∈ rules) (hne : w ≠ [])
    (hw : w <+: cs) (h : r.pattern.Matches w) :
    ∃ rule n, (longestMatch cs).longest = some (rule.category, n) ∧
      IsMunch (cs.take n) (cs.drop n) rule ∧ w <+: cs.take n := by
  cases hfound : (longestMatch cs).longest with
  | none => exact absurd h ((longest_eq_iff.1 hfound).not_matches hr hne hw)
  | some m =>
    obtain ⟨k, n⟩ := m
    obtain ⟨rule, rfl, hmunch⟩ := (longest_eq_iff.1 hfound).isMunch
    have hlong : w.length ≤ (cs.take n).length :=
      hmunch.longest r hr w (by rwa [List.take_append_drop]) h
    exact ⟨rule, n, rfl, hmunch, List.prefix_of_prefix_length_le hw (List.take_prefix n cs) hlong⟩

-- ---------------------------------------------------------------------------
-- The token at the beginning of code
-- ---------------------------------------------------------------------------

/-- A close tag takes one line break at most. -/
theorem lineBreakLength_cases (cs : List Char) :
    (∃ br, (br = ['\n'] ∨ br = ['\r', '\n']) ∧ br <+: cs ∧ cs.take (lineBreakLength cs) = br) ∨
      ¬ ['\n'] <+: cs ∧ ¬ ['\r', '\n'] <+: cs ∧ cs.take (lineBreakLength cs) = [] := by
  unfold lineBreakLength
  split
  · exact .inl ⟨['\r', '\n'], .inr rfl, by simp, rfl⟩
  · exact .inl ⟨['\n'], .inl rfl, by simp, rfl⟩
  · next hcrlf hlf =>
    refine .inr ⟨?_, ?_, rfl⟩
    · rintro ⟨rest, rfl⟩
      exact hlf _ rfl
    · rintro ⟨rest, rfl⟩
      exact hcrlf _ rfl

theorem yields_lexemeOf (cs : List Char) (n : Nat) (k : Category) :
    Yields (cs.take n) (cs.drop n) k (lexemeOf cs n k).1 (cs.take (lexemeOf cs n k).2) := by
  cases k with
  | comment =>
    rw [lexemeOf]
    dsimp only
    unfold commentKind
    split
    · next hdoc =>
      rw [Bool.and_eq_true, List.isPrefixOf_iff_prefix, decide_eq_true_eq] at hdoc
      exact .docComment hdoc.1 hdoc.2
    · next hdoc =>
      rw [Bool.and_eq_true, List.isPrefixOf_iff_prefix, decide_eq_true_eq] at hdoc
      exact .blockComment hdoc
  | heredoc =>
    rw [lexemeOf]
    dsimp only
    rw [List.take_add]
    exact .heredoc
  | token k =>
    rw [lexemeOf]
    dsimp only
    split
    · next hk =>
      subst hk
      rw [List.take_add]
      rcases lineBreakLength_cases (cs.drop n) with ⟨br, hbr, hstart, htake⟩ | ⟨hlf, hcrlf, htake⟩
      · rw [htake]
        exact .tagLine hbr hstart
      · rw [htake, List.append_nil]
        exact .tag hlf hcrlf
    · next hk => exact .plain hk

/-- The token at the beginning of code is the one that the table asks for. -/
theorem byTable_codeLexeme {cs : List Char} (hne : cs ≠ []) :
    ByTable cs (codeLexeme cs).1 (cs.take (codeLexeme cs).2) := by
  cases hfound : (longestMatch cs).longest with
  | none =>
    have hlongest := longest_eq_iff.1 hfound
    refine ⟨?_, ?_⟩
    · rintro ⟨r, hr, w, hw, hstart, hmatches⟩
      exact absurd hmatches (hlongest.not_matches hr hw hstart)
    · intro _
      rw [codeLexeme_of_none hfound]
      refine ⟨rfl, ?_, List.take_prefix _ _⟩
      rw [ne_eq, List.take_eq_nil_iff, not_or]
      refine ⟨?_, hne⟩
      dsimp only
      omega
  | some m =>
    obtain ⟨k, n⟩ := m
    obtain ⟨rule, rfl, hmunch⟩ := (longest_eq_iff.1 hfound).isMunch
    have hcut : cs = cs.take n ++ cs.drop n := (List.take_append_drop n cs).symm
    refine ⟨?_, ?_⟩
    · intro _
      rw [codeLexeme_of_longest hfound]
      exact ⟨_, _, rule, hcut, hmunch, yields_lexemeOf cs n rule.category⟩
    · intro hnone
      exact absurd hmunch.hits (hnone rule hmunch.mem _ hmunch.ne_nil (List.take_prefix n cs))

-- ---------------------------------------------------------------------------
-- The token at any place
-- ---------------------------------------------------------------------------

/-- The mode behind the tokens `us`, read from `mode` on. -/
def Mode.behind (mode : Mode) (us : List Token) : Mode :=
  (us.getLast?.map fun u => Mode.after u.kind).getD mode

theorem Mode.behind_cons (mode : Mode) (u : Token) (us : List Token) :
    mode.behind (u :: us) = (Mode.after u.kind).behind us := by
  rw [behind, behind, List.getLast?_cons]
  cases us.getLast? with
  | none => rfl
  | some v => rfl

/-- The token behind `us` is read from the text that `us` leave, in the mode they lead to. -/
theorem lexeme_of_lexemesFrom_eq {mode : Mode} {cs rest : List Char} {us vs : List Token}
    {t : Token} (h : lexemesFrom mode 0 cs = us ++ t :: vs)
    (hrest : cs = us.flatMap (·.text.toList) ++ rest) :
    rest ≠ [] ∧ t = ⟨(lexeme (mode.behind us) rest).1,
      String.ofList (rest.take (lexeme (mode.behind us) rest).2)⟩ := by
  induction us generalizing mode cs with
  | nil =>
    rw [List.flatMap_nil, List.nil_append] at hrest
    subst hrest
    cases cs with
    | nil => simp [lexemesFrom] at h
    | cons c cs =>
      rw [lexemesFrom_eq, List.nil_append, List.cons.injEq] at h
      exact ⟨by simp, h.1.symm⟩
  | cons u us ih =>
    cases cs with
    | nil => simp [lexemesFrom] at h
    | cons c cs =>
      rw [lexemesFrom_eq, List.cons_append, List.cons.injEq] at h
      obtain ⟨hu, hus⟩ := h
      -- what the first token leaves of the text
      have hdrop : (c :: cs).drop (lexeme mode (c :: cs)).2 =
          us.flatMap (·.text.toList) ++ rest := by
        rw [List.flatMap_cons, List.append_assoc, ← hu, String.toList_ofList] at hrest
        exact List.append_cancel_left ((List.take_append_drop _ _).trans hrest)
      rw [Mode.behind_cons, ← hu]
      exact ih hus hdrop

/-- Code is read behind a token that is no close tag, and where an open tag stands. -/
theorem lexeme_eq_codeLexeme {mode : Mode} {cs : List Char}
    (h : mode = .code ∨ opensCode cs = true) : lexeme mode cs = codeLexeme cs := by
  cases mode with
  | code => rfl
  | markup =>
    have hopens := h.resolve_left (by simp)
    cases cs with
    | nil => rfl
    | cons c cs =>
      rw [lexeme, markupLength, if_pos hopens]
      rfl

-- ---------------------------------------------------------------------------
-- Reserved words as names
-- ---------------------------------------------------------------------------

theorem Preceding.resolve_cases (p : Preceding) (k : Kind) :
    p.resolve k = k ∨ p.resolve k = .identifier ∧ ∃ w, k = .keyword w := by
  cases k with
  | keyword w =>
    rw [resolve]
    split
    · exact .inr ⟨rfl, w, rfl⟩
    · exact .inl rfl
  | _ => exact .inl rfl

theorem Preceding.after_resolve (p : Preceding) (k : Kind) :
    Mode.after (p.resolve k) = Mode.after k := by
  rcases p.resolve_cases k with h | ⟨h, w, rfl⟩
  · rw [h]
  · rw [h]
    rfl

theorem behind_resolveNamesAfter (mode : Mode) (p : Preceding) (us : List Token) :
    mode.behind (resolveNamesAfter p us) = mode.behind us := by
  induction us generalizing mode p with
  | nil => rfl
  | cons u us ih =>
    rw [resolveNamesAfter, Mode.behind_cons, Mode.behind_cons, ih, Preceding.after_resolve]

-- ---------------------------------------------------------------------------
-- Every token of code
-- ---------------------------------------------------------------------------

/-- Maximal munch. A token of code follows a token that is no close tag, or stands where an open
tag does. Its text, and its kind before reserved words are turned into names, are those that the
table asks for at the beginning of the text that is left. -/
theorem tokenize_byTable {source : String} {before after : List Token} {t : Token}
    {rest : List Char} (htokens : tokenize source = before ++ t :: after)
    (hrest : source.toList = before.flatMap (·.text.toList) ++ rest)
    (hcode : (∃ b, before.getLast? = some b ∧ b.kind ≠ .closeTag) ∨ opensCode rest = true) :
    ∃ k, (lexemes source.toList)[before.length]? = some ⟨k, t.text⟩ ∧
      (t.kind = k ∨ t.kind = .identifier ∧ ∃ w, k = .keyword w) ∧
      ByTable rest k t.text.toList := by
  obtain ⟨us, u, vs, hlexemes, rfl, rfl, -⟩ := exists_of_resolveNamesAfter_eq htokens
  rw [flatMap_text_resolveNamesAfter] at hrest
  obtain ⟨hne, hu⟩ := lexeme_of_lexemesFrom_eq hlexemes hrest
  have hmode : Mode.behind .markup us = .code ∨ opensCode rest = true := by
    refine hcode.imp_left ?_
    rintro ⟨b, hb, hkind⟩
    rw [← behind_resolveNamesAfter .markup {} us, Mode.behind, hb]
    exact if_neg hkind
  rw [lexeme_eq_codeLexeme hmode] at hu
  refine ⟨u.kind, ?_, Preceding.resolve_cases _ u.kind, ?_⟩
  · have hlength : (resolveNamesAfter {} us).length = us.length := by
      simpa using congrArg List.length (map_text_resolveNamesAfter {} us)
    rw [hlength, hlexemes]
    simp
  · show ByTable rest u.kind u.text.toList
    rw [hu, String.toList_ofList]
    exact byTable_codeLexeme hne

/-- A reserved word with a letter outside ASCII, longer than the name that begins there. -/
theorem tokenize_byTable_longS :
    tokenize "<?php claſsify" =
        [⟨.openTag, "<?php"⟩, ⟨.whitespace, " "⟩] ++
          ⟨.keyword .classKw, "claſs"⟩ :: [⟨.identifier, "ify"⟩] ∧
      ByTable "claſsify".toList (.keyword .classKw) "claſs".toList := by
  have htokens : tokenize "<?php claſsify" =
      [⟨.openTag, "<?php"⟩, ⟨.whitespace, " "⟩] ++
        ⟨.keyword .classKw, "claſs"⟩ :: [⟨.identifier, "ify"⟩] := by
    decide +kernel
  have hrest : "<?php claſsify".toList =
      [(⟨.openTag, "<?php"⟩ : Token), ⟨.whitespace, " "⟩].flatMap (·.text.toList) ++
        "claſsify".toList := by
    decide
  obtain ⟨k, -, hkind, htable⟩ := tokenize_byTable htokens hrest (.inl ⟨_, rfl, by decide⟩)
  have hk : Kind.keyword .classKw = k := hkind.resolve_right (by simp)
  rw [← hk] at htable
  exact ⟨htokens, htable⟩

end PhpImports
