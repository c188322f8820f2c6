import PhpImports.Proofs.Fix.Relex

/-!
# PhpImports — a fixed unit, written out and lexed

The tokens of an import are put into a unit as they are, and never pass through the lexer.
Where the words in them are free, that is, names that are not reserved, they are
nevertheless the tokens which the lexer reads from the text of the fixed unit. All other
tokens are read as before, and the tally counts what is there.

## Results

* `isFreeWord`                    — names that are not reserved.
* `pathTokens_importPath`         — the path of an import, lexed.
* `importTokens_eq_importStatement` — an import, lexed.
* `Fixer.fix_lexes_back`          — a fixed unit is what its text is lexed into.
-/

namespace PhpImports

-- ---------------------------------------------------------------------------
-- Free words
-- ---------------------------------------------------------------------------

/-- A name that is not reserved: a letter or an underscore of ASCII, then letters, digits and
underscores, and no reserved word in any letter case. -/
def isFreeWord (s : String) : Bool :=
  (match s.toList with
    | [] => false
    | c :: w => isWordStart c && w.all isWordChar) &&
  Keyword.all.all fun k => !equalIgnoringCase k.spelling s

/-- Of the characters of names only letters stand for letters of reserved words. -/
theorem toLower_eq_of_foldsTo {c l : Char} (hc : isWordChar c = true) (h : foldsTo c l = true) :
    c.toLower = l := by
  simp only [foldsTo, Bool.or_eq_true, Bool.and_eq_true, beq_iff_eq] at h
  rcases h with (h | ⟨rfl, -⟩) | ⟨rfl, -⟩
  · exact h
  · exact absurd hc (by decide)
  · exact absurd hc (by decide)

theorem map_toLower_of_isEqv {w s : List Char} (hw : ∀ c ∈ w, isWordChar c = true)
    (h : w.isEqv s foldsTo = true) : w.map Char.toLower = s := by
  induction w generalizing s with
  | nil =>
    cases s with
    | nil => rfl
    | cons l s => simp at h
  | cons c w ih =>
    cases s with
    | nil => simp at h
    | cons l s =>
      rw [List.isEqv_cons_cons, Bool.and_eq_true] at h
      rw [List.forall_mem_cons] at hw
      rw [List.map_cons, toLower_eq_of_foldsTo hw.1 h.1, ih hw.2 h.2]

theorem map_toLower_spelling {k : Keyword} (hk : k ∈ Keyword.all) :
    k.spelling.toList.map Char.toLower = k.spelling.toList := by
  have hall : (Keyword.all.all fun k =>
      k.spelling.toList.map Char.toLower == k.spelling.toList) = true := by decide
  simpa using List.all_eq_true.1 hall k hk

section FreeWords

variable {s : String}

theorem matches_name_of_isFreeWord (h : isFreeWord s = true) : Pattern.name.Matches s.toList := by
  rw [isFreeWord, Bool.and_eq_true] at h
  cases hs : s.toList with
  | nil =>
    rw [hs] at h
    exact absurd h.1 (by simp)
  | cons c w =>
    rw [hs] at h
    rw [Pattern.matches_name_iff]
    simpa using h.1

theorem isWordChar_of_isFreeWord (h : isFreeWord s = true) :
    ∀ c ∈ s.toList, isWordChar c = true := by
  have hname := matches_name_of_isFreeWord h
  intro c hc
  cases hs : s.toList with
  | nil => simp [hs] at hc
  | cons d w =>
    rw [hs] at hc hname
    rw [Pattern.matches_name_iff] at hname
    rcases List.mem_cons.1 hc with rfl | hc
    · exact isWordChar_of_isWordStart hname.1
    · exact hname.2 c hc

/-- A free word is an identifier to the lexer. -/
theorem wordKind_of_isFreeWord (h : isFreeWord s = true) : wordKind s = .identifier := by
  rw [wordKind_eq_identifier_iff, Keyword.ofText?, List.find?_eq_none]
  intro k hk heqv
  have hlower := map_toLower_of_isEqv (isWordChar_of_isFreeWord h) heqv
  rw [isFreeWord, Bool.and_eq_true] at h
  have hfree := List.all_eq_true.1 h.2 k hk
  rw [Bool.not_eq_true', equalIgnoringCase, hlower, map_toLower_spelling hk] at hfree
  simp at hfree

theorem nameText_of_isFreeWord (h : isFreeWord s = true) : NameText s :=
  .inr (matches_name_of_isFreeWord h)

end FreeWords

-- ---------------------------------------------------------------------------
-- Imports of free words, lexed
-- ---------------------------------------------------------------------------

/-- Free words, each with a separator behind it. -/
theorem lexemesFrom_segments {segments : List String} (h : ∀ s ∈ segments, isFreeWord s = true) :
    lexemesFrom .code 0 (segments.flatMap fun s => s.toList ++ ['\\']) =
      segments.flatMap fun s => [⟨.identifier, s⟩, ⟨.nsSeparator, "\\"⟩] := by
  induction segments with
  | nil => rfl
  | cons s segments ih =>
    rw [List.forall_mem_cons] at h
    have hword := lexemesFrom_nameText (nameText_of_isFreeWord h.1) (d := '\\')
      (segments.flatMap fun s => s.toList ++ ['\\']) (by decide)
    rw [List.flatMap_cons, List.flatMap_cons, List.append_assoc, List.singleton_append, hword,
      lexemesFrom_separator, ih h.2, wordKind_of_isFreeWord h.1]
    rfl

/-- The path of an import and the separator behind it, from its segments. -/
theorem toList_importPath_append (part ns : String) :
    (importPath part ns).toList ++ ['\\'] =
      (importSegments part ns).flatMap fun s => s.toList ++ ['\\'] := by
  have hpieces := flatMap_pieces separator (removeAll part.toList ns.toList)
  rw [importPath, String.toList_ofList, importSegments, List.flatMap_map]
  simp only [String.toList_ofList]
  exact hpieces.symm

section Segments

variable {part ns : String} (h : ∀ s ∈ importSegments part ns, isFreeWord s = true)
include h

theorem pathTokens_importPath :
    pathTokens (importPath part ns) =
      (importSegments part ns).flatMap fun s => [⟨.identifier, s⟩, ⟨.nsSeparator, "\\"⟩] := by
  rw [← lexemesFrom_segments h, ← toList_importPath_append]
  rfl

theorem isPathChar_importPath : ∀ c ∈ (importPath part ns).toList, isPathChar c = true := by
  intro c hc
  have hmem : c ∈ (importPath part ns).toList ++ ['\\'] := List.mem_append.2 (.inl hc)
  rw [toList_importPath_append, List.mem_flatMap] at hmem
  obtain ⟨s, hs, hmem⟩ := hmem
  rw [isPathChar, Bool.or_eq_true]
  rcases List.mem_append.1 hmem with hmem | hmem
  · exact .inl (isWordChar_of_isFreeWord (h s hs) c hmem)
  · rw [List.mem_singleton.1 hmem]
    exact .inr rfl

/-- The lexer reads the tokens of a generated import. -/
theorem importTokens_eq_importStatement {name : String} (hname : isFreeWord name = true) :
    importTokens (pathTokens (importPath part ns)) name =
      importStatement (importSegments part ns) name := by
  rw [importTokens, importStatement, pathTokens_importPath h, wordToken,
    wordKind_of_isFreeWord hname]

theorem flatMap_importTokens_eq_importBlock {names : List String}
    (hnames : ∀ m ∈ names, isFreeWord m = true) :
    names.flatMap (importTokens (pathTokens (importPath part ns))) =
      importBlock (importSegments part ns) names := by
  rw [importBlock]
  apply List.flatMap_congr
  intro m hm
  exact importTokens_eq_importStatement h (hnames m hm)

end Segments

-- ---------------------------------------------------------------------------
-- The fixed unit
-- ---------------------------------------------------------------------------

/-- A fixed unit has the tally of its tokens. -/
theorem fixTokens_ofList (part : String) (ts : List Token) :
    (fixTokens part (.ofList ts)).tokens = .ofList (fixTokens part (.ofList ts)).tokens.tokens := by
  by_cases hins : (fixTokens part (.ofList ts)).inserted = []
  · rw [fixTokens_eq_of_inserted hins]
    rfl
  · cases hns : namespaceDecl? ts with
    | none => exact absurd ((inserted_eq_nil_iff part (.ofList ts)).2 (.inl hns)) hins
    | some ns =>
      rw [(fixTokens_inserted (s := .ofList ts) hns hins).2, TokenSeq.addImports_eq_splice,
        TokenSeq.splice_ofList]
      rfl

/-- The text of a fixed unit is lexed into the tokens of the fixed unit, one by one, if every
inserted name and every segment of its path is a free word. -/
theorem Fixer.fix_lexes_back (f : Fixer) {part : String}
    (hset : f.config.namespacePrefix = some part) (hblank : isBlankText part = false)
    {source : String} {r : Fixed} (hfix : f.fix (.ofSource source) = .ok r)
    (hnames : ∀ m ∈ r.inserted, isFreeWord m = true)
    (hsegments : ∀ ns, namespaceDecl? (tokenize source) = some ns →
      ∀ s ∈ importSegments part ns.name, isFreeWord s = true) :
    tokenize r.tokens.source = r.tokens.tokens ∧ TokenSeq.ofSource r.tokens.source = r.tokens := by
  rw [Fixer.fix_eq_ok hset hblank, Except.ok.injEq] at hfix
  subst hfix
  have htokens : tokenize (fixTokens part (.ofSource source)).tokens.source =
      (fixTokens part (.ofSource source)).tokens.tokens := by
    by_cases hins : (fixTokens part (.ofSource source)).inserted = []
    · rw [fixTokens_eq_of_inserted hins, source_ofSource]
      rfl
    · cases hns : namespaceDecl? (tokenize source) with
      | none => exact absurd ((inserted_eq_nil_iff part (.ofSource source)).2 (.inl hns)) hins
      | some ns =>
        -- lexed anew, the unit differs from what it was by the lexed imports only
        obtain ⟨t, ht, hkind⟩ := getElem?_importAnchor hns
        obtain ⟨pre, post, hcut, hlength⟩ := exists_cut ht
        have hfree : ∀ m ∈ missingNames (tokenize source), isFreeWord m = true := by
          rw [(fixTokens_inserted (s := .ofSource source) hns hins).1] at hnames
          exact hnames
        have hpath := isPathChar_importPath (hsegments ns hns)
        rw [tokenize_fixTokens hns hins hpath hcut hlength hkind,
          flatMap_importTokens_eq_importBlock (hsegments ns hns) hfree]
        exact (tokens_fixTokens (s := .ofSource source) hns hins hcut hlength).symm
  refine ⟨htokens, ?_⟩
  rw [TokenSeq.ofSource, htokens]
  exact (fixTokens_ofList part (tokenize source)).symm

/-- A unit with the beginning of a comment that is never closed. -/
def uncommentedTokens : List Token :=
  [⟨.openTag, "<?php"⟩, ⟨.whitespace, " "⟩, ⟨.operator, "/"⟩, ⟨.operator, "*"⟩,
    ⟨.keyword .namespaceKw, "namespace"⟩, ⟨.whitespace, " "⟩, ⟨.identifier, "P"⟩,
    ⟨.nsSeparator, "\\"⟩, ⟨.identifier, "A"⟩, ⟨.semicolon, ";"⟩, ⟨.keyword .newKw, "new"⟩,
    ⟨.whitespace, " "⟩, ⟨.identifier, "B"⟩, ⟨.semicolon, ";"⟩]

theorem Fixer.fix_lexes_back_uncommented :
    tokenize "<?php /*namespace P\\A;new B;" = uncommentedTokens ∧
      isFreeWord "B" = true ∧ importSegments "P\\" "P\\A" = ["A"] ∧ isFreeWord "A" = true ∧
      ∃ r, Fixer.fix { config := ⟨some "P\\"⟩ }
          (.ofSource "<?php /*namespace P\\A;new B;") = .ok r ∧
        r.inserted = ["B"] ∧ r.tokens.source = "<?php /*namespace P\\A;\nuse A\\B;new B;" ∧
        tokenize r.tokens.source = r.tokens.tokens := by
  have hts : tokenize "<?php /*namespace P\\A;new B;" = uncommentedTokens := by decide +kernel
  have hsource : TokenSeq.ofSource "<?php /*namespace P\\A;new B;" = .ofList uncommentedTokens := by
    rw [TokenSeq.ofSource, hts]
  have hfix := Fixer.fix_eq_ok (f := { config := ⟨some "P\\"⟩ }) rfl (by decide)
    (.ofSource "<?php /*namespace P\\A;new B;")
  have hins : (fixTokens "P\\" (.ofSource "<?php /*namespace P\\A;new B;")).inserted = ["B"] := by
    rw [hsource]
    decide
  have htext : (fixTokens "P\\" (.ofSource "<?php /*namespace P\\A;new B;")).tokens.source =
      "<?php /*namespace P\\A;\nuse A\\B;new B;" := by
    rw [hsource]
    decide
  have hsegments : importSegments "P\\" "P\\A" = ["A"] := by decide
  have hns : namespaceDecl? uncommentedTokens = some ⟨"P\\A", 9⟩ := by decide
  have hback := Fixer.fix_lexes_back { config := ⟨some "P\\"⟩ } rfl (by decide) hfix
    (by rw [hins]; decide)
    (by
      intro ns hns'
      rw [hts, hns] at hns'
      cases hns'
      rw [hsegments]
      decide)
  exact ⟨hts, by decide, hsegments, by decide, _, hfix, hins, htext, hback.1⟩

end PhpImports
