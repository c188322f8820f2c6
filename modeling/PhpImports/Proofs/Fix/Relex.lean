import PhpImports.Proofs.Fix.Candidate
import PhpImports.Proofs.Fix.ReadBack
import PhpImports.Proofs.Lexing.Insertion
import PhpImports.Proofs.Names.NamespaceBlock

/-!
# PhpImports — fixing a source twice

A fixed source is lexed anew before it is fixed again. The tokens of the imports are
then those that the lexer reads: a name that spells a reserved word is a reserved word
now, and the import binds no name, or the last identifier of its path. So the name is
missing still, and it is imported once more with every fix.

## Results

* `isImport_importTokens`    — what a lexed import binds.
* `inert_importTokens`       — lexed imports use and declare nothing.
* `missingNames_relexed_iff` — when nothing is missing any more.
* `Fixer.fixFile_again_iff`  — when a second fix changes nothing.
* `Fixer.fixFile_again_reserved` — a source that every fix extends.
-/

namespace PhpImports

-- ---------------------------------------------------------------------------
-- Lexed imports
-- ---------------------------------------------------------------------------

theorem isClauseMark_wordKind (text : String) : (wordKind text).isClauseMark = false := by
  unfold wordKind
  split <;> rfl

/-- The tokens of a path are no trivia and end no clause. -/
theorem IsPath.kind_of_mem {path : List Token} (h : IsPath path) {t : Token} (ht : t ∈ path) :
    t.kind.isMeaningful = true ∧ t.kind.isClauseMark = false := by
  induction h with
  | nil => simp at ht
  | separator hkind _ ih =>
    rcases List.mem_cons.1 ht with rfl | ht
    · rw [hkind]
      exact ⟨rfl, rfl⟩
    · exact ih ht
  | number hkind _ ih =>
    rcases List.mem_cons.1 ht with rfl | ht
    · rcases hkind with hkind | hkind <;> rw [hkind] <;> exact ⟨rfl, rfl⟩
    · exact ih ht
  | word hkind hsep _ ih =>
    rcases List.mem_cons.1 ht with rfl | ht
    · rw [hkind]
      exact ⟨isMeaningful_wordKind _, isClauseMark_wordKind _⟩
    · rcases List.mem_cons.1 ht with rfl | ht
      · rw [hsep]
        exact ⟨rfl, rfl⟩
      · exact ih ht

theorem IsPath.meaningful_eq {path : List Token} (h : IsPath path) : meaningful path = path := by
  apply List.filter_eq_self.2
  intro t ht
  exact (h.kind_of_mem ht).1

/-- An identifier of a path spells no reserved word. -/
theorem IsPath.ofText?_of_identifier {path : List Token} (h : IsPath path) {t : Token}
    (ht : t ∈ path) (hkind : t.kind = .identifier) : Keyword.ofText? t.text = none := by
  induction h with
  | nil => simp at ht
  | separator hsep _ ih =>
    rcases List.mem_cons.1 ht with rfl | ht
    · rw [hsep] at hkind
      simp at hkind
    · exact ih ht
  | number hnumber _ ih =>
    rcases List.mem_cons.1 ht with rfl | ht
    · rcases hnumber with hnumber | hnumber <;> rw [hnumber] at hkind <;> simp at hkind
    · exact ih ht
  | word hword hsep _ ih =>
    rcases List.mem_cons.1 ht with rfl | ht
    · rw [hword] at hkind
      exact wordKind_eq_identifier_iff.1 hkind
    · rcases List.mem_cons.1 ht with rfl | ht
      · rw [hsep] at hkind
        simp at hkind
      · exact ih ht

theorem meaningful_importTokens {path : List Token} (hpath : IsPath path) (name : String) :
    meaningful (importTokens path name) =
      ⟨.keyword .useKw, "use"⟩ :: (path ++ [wordToken name, ⟨.semicolon, ";"⟩]) := by
  have hname : meaningful [wordToken name, ⟨.semicolon, ";"⟩] =
      [wordToken name, ⟨.semicolon, ";"⟩] := by
    have hword : (wordToken name).isMeaningful = true := isMeaningful_wordKind name
    rw [meaningful, List.filter_cons_of_pos hword]
    rfl
  rw [importTokens, meaningful_append, meaningful_append, hpath.meaningful_eq, hname]
  rfl

/-- The name that a lexed import binds: the last identifier of its path, if the name is a
reserved word. -/
def boundName (path : List Token) (name : String) : Option String :=
  if Keyword.ofText? name = none then some name else lastName none path

theorem isImport_importTokens {path : List Token} (hpath : IsPath path) (name : String) :
    IsImport (importTokens path name) (boundName path name) := by
  refine ⟨[⟨.whitespace, "\n"⟩, ⟨.keyword .useKw, "use"⟩, ⟨.whitespace, " "⟩] ++ path ++
    [wordToken name], ⟨.keyword .useKw, "use"⟩, path ++ [wordToken name], ⟨.semicolon, ";"⟩,
    ?_, ?_, rfl, rfl, ?_, ?_⟩
  · simp [importTokens]
  · have hword : (wordToken name).isMeaningful = true := isMeaningful_wordKind name
    have hname : meaningful [wordToken name] = [wordToken name] := by
      rw [meaningful, List.filter_cons_of_pos hword]
      rfl
    rw [meaningful_append, meaningful_append, hpath.meaningful_eq, hname]
    rfl
  · intro t ht
    rcases List.mem_append.1 ht with ht | ht
    · exact (hpath.kind_of_mem ht).2
    · rw [List.mem_singleton.1 ht]
      exact isClauseMark_wordKind name
  · rw [lastName_concat, boundName, wordToken]
    simp only [wordKind_eq_identifier_iff]

/-- A word before a separator or a `;`, be it a `use`. -/
theorem inert_word (text : String) {t u : Token} {ts : List Token} (ht : t.kind = wordKind text)
    (hu : u.kind = .nsSeparator ∨ u.kind = .semicolon) (h : Inert (u :: ts)) :
    Inert (t :: u :: ts) := by
  by_cases huse : t.kind = .keyword .useKw
  · exact .link (by rw [huse]; rfl) h
  · refine .word ?_ hu h
    unfold wordKind at ht
    split at ht
    · next w _ =>
      rw [ht] at huse
      rw [ht, Kind.isWord]
      simpa using huse
    · rw [ht]
      rfl

theorem inert_importTokens {path : List Token} (hpath : IsPath path) (name : String) :
    Inert (meaningful (importTokens path name)) := by
  rw [meaningful_importTokens hpath]
  refine .link rfl ?_
  have hend : Inert [wordToken name, ⟨.semicolon, ";"⟩] :=
    inert_word name rfl (.inr rfl) (.stop rfl)
  induction hpath with
  | nil => exact hend
  | separator hsep _ ih => exact .link (by rw [hsep]; rfl) ih
  | number hnumber _ ih =>
    refine .link ?_ ih
    rcases hnumber with hnumber | hnumber <;> rw [hnumber] <;> rfl
  | word hword hsep _ ih =>
    exact inert_word _ hword (.inl hsep) (.link (by rw [hsep]; rfl) ih)

theorem declaresNamespace_path {path : List Token} (hpath : IsPath path) (ts : List Token) :
    declaresNamespace (path ++ ts) = declaresNamespace ts := by
  induction hpath with
  | nil => rfl
  | separator hsep _ ih => rw [List.cons_append, declaresNamespace, hsep, ih]; simp
  | number hnumber _ ih =>
    rw [List.cons_append, declaresNamespace, ih]
    rcases hnumber with hnumber | hnumber <;> simp [hnumber]
  | word _ hsep _ ih =>
    -- whatever the word is, a separator follows it
    rw [List.cons_append, List.cons_append, declaresNamespace, declaresNamespace, ih]
    simp [hsep]

theorem declaresNamespace_name (name : String) (ts : List Token) :
    declaresNamespace (wordToken name :: ⟨.semicolon, ";"⟩ :: ts) = true ↔
      wordKind name = .keyword .namespaceKw ∨ declaresNamespace ts = true := by
  show _ ↔ (wordToken name).kind = .keyword .namespaceKw ∨ _
  simp [declaresNamespace]

/-- A declaration among lexed imports is the word `namespace` at the end of one of them. -/
theorem declaresNamespace_imports_iff {path : List Token} (hpath : IsPath path)
    {names : List String} :
    declaresNamespace (meaningful (names.flatMap (importTokens path))) = true ↔
      ∃ m ∈ names, Keyword.ofText? m = some .namespaceKw := by
  induction names with
  | nil => simp [declaresNamespace, meaningful]
  | cons n names ih =>
    rw [List.flatMap_cons, meaningful_append, meaningful_importTokens hpath, List.cons_append,
      List.append_assoc, declaresNamespace, declaresNamespace_path hpath]
    have hcons : (∃ m ∈ n :: names, Keyword.ofText? m = some .namespaceKw) ↔
        wordKind n = .keyword .namespaceKw ∨
          ∃ m ∈ names, Keyword.ofText? m = some .namespaceKw := by
      simp [wordKind_eq_keyword_iff]
    rw [hcons, ← ih, ← declaresNamespace_name]
    simp

-- ---------------------------------------------------------------------------
-- What is missing after a fix
-- ---------------------------------------------------------------------------

/-- No lexed import binds a reserved word. -/
theorem ofText?_of_boundName {path : List Token} (hpath : IsPath path) {name m : String}
    (h : boundName path name = some m) : Keyword.ofText? m = none := by
  unfold boundName at h
  split at h
  · next hnone =>
    rw [← Option.some.inj h]
    exact hnone
  · rcases exists_of_lastName h with hlast | ⟨t, ht, hkind, rfl⟩
    · exact absurd hlast (by simp)
    · exact hpath.ofText?_of_identifier ht hkind

/-- After lexed imports of all missing names were put in, nothing is missing exactly if they
stand where imports may stand and no name spells a reserved word. -/
theorem missingNames_relexed_iff {pre post : List Token} {t : Token} (h : AnchorAt pre t post)
    {path : List Token} (hpath : IsPath path) (hne : missingNames (pre ++ t :: post) ≠ []) :
    missingNames (pre ++ t ::
        ((missingNames (pre ++ t :: post)).flatMap (importTokens path) ++ post)) = [] ↔
      (scanThrough (pre ++ t :: post) pre.length).atImportLevel = true ∧
        ∀ m ∈ missingNames (pre ++ t :: post), Keyword.ofText? m = none := by
  generalize hM : missingNames (pre ++ t :: post) = missing at hne
  have hinert := Inert.flatMap (inert_importTokens hpath) hne
  have hinserted := inserted_meaningful pre post (missing.flatMap (importTokens path)) h.kind
  have hused := hinserted.usedNames_eq hinert
  have hdeclared := hinserted.declaredTypes_eq hinert
  cases hlevel : (scanThrough (pre ++ t :: post) pre.length).atImportLevel with
  | false =>
    -- the imports are not read, so that the same names are missing
    have himported := h.importedNames_inert hlevel hinert
    have hsame : missingNames (pre ++ t :: (missing.flatMap (importTokens path) ++ post)) =
        missing := by
      rw [missingNames_eq, hused, hdeclared, himported, ← missingNames_eq, hM]
    rw [hsame]
    simp [hne]
  | true =>
    have hblock : missing.flatMap (importTokens path) ≠ [] := by
      intro hnil
      rw [hnil] at hinert
      cases hinert
    obtain ⟨himported, -⟩ :=
      h.importScan_imports hlevel (.flatMap (isImport_importTokens hpath) missing) hblock
    constructor
    · intro hnone
      refine ⟨rfl, ?_⟩
      intro m hm
      rw [← hM, mem_missingNames, h.importedNames_eq] at hm
      obtain ⟨hmused, hmimported, hmdeclared⟩ := hm
      rw [missingNames_eq_nil_iff, hused, hdeclared, himported] at hnone
      -- the name is imported now, and by one of the new imports
      have hbound : m ∈ (missing.map (boundName path)).flatMap Option.toList := by
        have := (hnone m hmused).resolve_right hmdeclared
        simp only [List.mem_append, not_or] at this hmimported
        rcases this with (hin | hin) | hin
        · exact absurd hin hmimported.1
        · exact hin
        · exact absurd hin hmimported.2
      obtain ⟨o, ho, hmo⟩ := List.mem_flatMap.1 hbound
      obtain ⟨n, -, rfl⟩ := List.mem_map.1 ho
      exact ofText?_of_boundName hpath (Option.mem_toList.1 hmo)
    · rintro ⟨-, hnames⟩
      apply missingNames_extended hused hdeclared
      intro n hn
      rw [himported]
      rw [h.importedNames_eq, hM] at hn
      simp only [List.mem_append] at hn ⊢
      rcases hn with (hn | hn) | hn
      · exact .inl (.inl hn)
      · exact .inr hn
      · refine .inl (.inr (List.mem_flatMap.2 ⟨some n, ?_, by simp⟩))
        refine List.mem_map.2 ⟨n, hn, ?_⟩
        rw [boundName, if_pos (hnames n hn)]

-- ---------------------------------------------------------------------------
-- The fixed source
-- ---------------------------------------------------------------------------

theorem flatMap_text_importBlock (part ns : String) (names : List String) :
    (importBlock (importSegments part ns) names).flatMap (·.text.toList) =
      importText (importPath part ns) names := by
  rw [importBlock, List.flatMap_assoc, importText]
  simp only [toList_sourceText_importStatement]

/-- The tokens of a fixed source, lexed anew: those of the source, with one import for each
missing name behind the anchor. -/
theorem tokenize_fixTokens {part source : String} {ns : NamespaceDecl}
    (hns : namespaceDecl? (tokenize source) = some ns)
    (hins : (fixTokens part (.ofSource source)).inserted ≠ [])
    (hpath : ∀ c ∈ (importPath part ns.name).toList, isPathChar c = true)
    {pre post : List Token} {t : Token} (hcut : tokenize source = pre ++ t :: post)
    (hlength : pre.length = importAnchor ns (importScan (tokenize source)).lastEnd)
    (ht : t.kind = .semicolon ∨ t.kind = .lBrace) :
    tokenize (fixTokens part (.ofSource source)).tokens.source =
      pre ++ t :: ((missingNames (tokenize source)).flatMap
        (importTokens (pathTokens (importPath part ns.name))) ++ post) := by
  have hnames : ∀ m ∈ missingNames (tokenize source), NameText m := by
    intro m hm
    obtain ⟨-, u, hu, hkind, rfl⟩ := mentioned_of_mem_usedNames (mem_missingNames.1 hm).1
    exact nameText_of_identifier hu hkind
  have hsource : (fixTokens part (.ofSource source)).tokens.source =
      String.ofList (pre.flatMap (·.text.toList) ++ t.text.toList ++
        importText (importPath part ns.name) (missingNames (tokenize source)) ++
        post.flatMap (·.text.toList)) := by
    have hunit := tokens_fixTokens (s := .ofSource source) hns hins hcut hlength
    rw [TokenSeq.source, sourceText, hunit, List.flatMap_append, List.flatMap_cons,
      List.flatMap_append, flatMap_text_importBlock]
    simp only [List.append_assoc]
    rfl
  rw [hsource]
  exact tokenize_insert hcut ht hpath hnames

/-- The same for some tokens of the path, of which it only matters that they are a path. -/
theorem tokenize_fixed {part source : String} {ns : NamespaceDecl}
    (hns : namespaceDecl? (tokenize source) = some ns)
    (hins : (fixTokens part (.ofSource source)).inserted ≠ [])
    (hpath : ∀ c ∈ (importPath part ns.name).toList, isPathChar c = true)
    {pre post : List Token} {t : Token} (hcut : tokenize source = pre ++ t :: post)
    (hlength : pre.length = importAnchor ns (importScan (tokenize source)).lastEnd)
    (ht : t.kind = .semicolon ∨ t.kind = .lBrace) :
    ∃ path, IsPath path ∧ tokenize (fixTokens part (.ofSource source)).tokens.source =
      pre ++ t :: ((missingNames (tokenize source)).flatMap (importTokens path) ++ post) :=
  ⟨_, (lexemesFrom_path hpath).1, tokenize_fixTokens hns hins hpath hcut hlength ht⟩

/-- A second fix leaves a fixed source as it is in two cases only. Either the imports stand where
imports may stand and no imported name spells a reserved word, so that nothing is missing; or the
imports stand before the namespace declaration and one of the names spells `namespace`, so that
the unit has lost its namespace. -/
theorem Fixer.fixFile_again_iff (f : Fixer) {part : String}
    (hset : f.config.namespacePrefix = some part) {file : SourceFile} {target : Version}
    {text : String} (hfix : f.fixFile file target = .ok (some text))
    {ts : List Token} (hts : tokenize file.source = ts)
    {ns : NamespaceDecl} (hns : namespaceDecl? ts = some ns)
    {a : Nat} (ha : importAnchor ns (importScan ts).lastEnd = a)
    (hpath : ∀ c ∈ (importPath part ns.name).toList, isPathChar c = true)
    (hended : ∀ t, ts[a]? = some t → t.kind = .lBrace → UsesEndedBefore a ts) :
    f.fixFile { file with source := text } target = .ok none ↔
      (scanThrough ts a).atImportLevel = true ∧
          (∀ m ∈ missingNames ts, Keyword.ofText? m = none) ∨
        a < ns.stop ∧ ∃ m ∈ missingNames ts, Keyword.ofText? m = some .namespaceKw := by
  subst hts ha
  obtain ⟨hblank, hsupports, hcandidate, hins, htext⟩ := exists_of_fixFile_eq_some hset hfix
  obtain ⟨pre, t, post, hcut, hlength, hanchor⟩ := exists_anchorAt hns hended
  obtain ⟨path, hpath', hrelex⟩ := tokenize_fixed hns hins hpath hcut hlength hanchor.kind
  rw [← htext] at hrelex
  have hne : missingNames (tokenize file.source) ≠ [] := by
    intro hnil
    exact hins ((inserted_eq_nil_iff _ _).2 (.inr hnil))
  have hinert := Inert.flatMap (inert_importTokens hpath') hne
  have hcandidate' : isCandidate (.ofSource text) target = true := by
    refine isCandidate_mono hcandidate ?_
    rw [hrelex]
    intro u hu
    rw [hcut] at hu
    simp only [List.mem_append, List.mem_cons] at hu ⊢
    rcases hu with hu | hu | hu
    · exact .inl hu
    · exact .inr (.inl hu)
    · exact .inr (.inr (.inr hu))
  rw [fixFile_eq_none_iff ⟨file.path, text⟩ hset hblank hsupports hcandidate', hrelex, ← hlength]
  have hnamespace := namespaceDecl?_insert_eq_none_iff hanchor.kind hinert
    (by rw [← hcut]; exact hns)
  have hmissing := missingNames_relexed_iff hanchor hpath' (by rw [← hcut]; exact hne)
  rw [← hcut] at hmissing
  rw [hnamespace, hmissing, declaresNamespace_imports_iff hpath', or_comm]

/-- A unit that lacks an import in the body of its namespace. -/
def bodyTokens : List Token :=
  [⟨.openTag, "<?php"⟩, ⟨.whitespace, " "⟩, ⟨.keyword .namespaceKw, "namespace"⟩,
    ⟨.whitespace, " "⟩, ⟨.identifier, "A"⟩, ⟨.lBrace, "\x7b"⟩, ⟨.keyword .newKw, "new"⟩,
    ⟨.whitespace, " "⟩, ⟨.identifier, "B"⟩, ⟨.semicolon, ";"⟩, ⟨.rBrace, "\x7d"⟩]

theorem Fixer.fixFile_again_body :
    Fixer.fixFile { config := ⟨some "P"⟩ } ⟨"a.php", "<?php namespace A\x7bnew B;\x7d"⟩ ⟨7, 1, 0⟩ =
        .ok (some "<?php namespace A\x7b\nuse A\\B;new B;\x7d") ∧
      UsesEndedBefore 5 bodyTokens ∧ (scanThrough bodyTokens 5).atImportLevel = true ∧
      missingNames bodyTokens = ["B"] ∧ Keyword.ofText? "B" = none ∧
      Fixer.fixFile { config := ⟨some "P"⟩ }
        ⟨"a.php", "<?php namespace A\x7b\nuse A\\B;new B;\x7d"⟩ ⟨7, 1, 0⟩ = .ok none := by
  have hts : tokenize "<?php namespace A\x7bnew B;\x7d" = bodyTokens := by cbv
  have hfix : Fixer.fixFile { config := ⟨some "P"⟩ }
      ⟨"a.php", "<?php namespace A\x7bnew B;\x7d"⟩ ⟨7, 1, 0⟩ =
      .ok (some "<?php namespace A\x7b\nuse A\\B;new B;\x7d") :=
    Fixer.fixFile_eq_of_tokenize hts rfl (show isBlankText "P" = false by decide) rfl
      (by decide) (by decide)
  have hns : namespaceDecl? bodyTokens = some ⟨"A", 5⟩ := by decide
  have hanchor : importAnchor ⟨"A", 5⟩ (importScan bodyTokens).lastEnd = 5 := by decide
  have hended : UsesEndedBefore 5 bodyTokens := by decide
  have hlevel : (scanThrough bodyTokens 5).atImportLevel = true := by decide
  have hmissing : missingNames bodyTokens = ["B"] := by decide
  have hname : Keyword.ofText? "B" = none := by decide
  have hagain := Fixer.fixFile_again_iff { config := ⟨some "P"⟩ } rfl hfix hts hns hanchor
    (forall_mem_of_all (by decide)) fun _ _ _ => hended
  refine ⟨hfix, hended, hlevel, hmissing, hname, hagain.2 (.inl ⟨hlevel, ?_⟩)⟩
  rw [hmissing]
  intro m hm
  rw [List.mem_singleton.1 hm]
  exact hname

/-- A property named `class` is accessed, and its name is taken for that of a class. Each fix adds
the same import once more. -/
theorem Fixer.fixFile_again_reserved :
    Fixer.fixFile { config := ⟨some "P"⟩ }
        ⟨"a.php", "<?php namespace A;$x->class::f();"⟩ ⟨7, 1, 0⟩ =
        .ok (some "<?php namespace A;\nuse A\\class;$x->class::f();") ∧
      Fixer.fixFile { config := ⟨some "P"⟩ }
        ⟨"a.php", "<?php namespace A;\nuse A\\class;$x->class::f();"⟩ ⟨7, 1, 0⟩ =
        .ok (some "<?php namespace A;\nuse A\\class;\nuse A\\class;$x->class::f();") := by
  constructor
  · have hts : tokenize "<?php namespace A;$x->class::f();" =
        [⟨.openTag, "<?php"⟩, ⟨.whitespace, " "⟩, ⟨.keyword .namespaceKw, "namespace"⟩,
          ⟨.whitespace, " "⟩, ⟨.identifier, "A"⟩, ⟨.semicolon, ";"⟩, ⟨.variable, "$x"⟩,
          ⟨.objectOperator, "->"⟩, ⟨.identifier, "class"⟩, ⟨.doubleColon, "::"⟩,
          ⟨.identifier, "f"⟩, ⟨.lParen, "("⟩, ⟨.rParen, ")"⟩, ⟨.semicolon, ";"⟩] := by
      cbv
    exact Fixer.fixFile_eq_of_tokenize hts rfl (show isBlankText "P" = false by decide) rfl
      (by decide) (by decide)
  · have hts : tokenize "<?php namespace A;\nuse A\\class;$x->class::f();" =
        [⟨.openTag, "<?php"⟩, ⟨.whitespace, " "⟩, ⟨.keyword .namespaceKw, "namespace"⟩,
          ⟨.whitespace, " "⟩, ⟨.identifier, "A"⟩, ⟨.semicolon, ";"⟩, ⟨.whitespace, "\n"⟩,
          ⟨.keyword .useKw, "use"⟩, ⟨.whitespace, " "⟩, ⟨.identifier, "A"⟩,
          ⟨.nsSeparator, "\\"⟩, ⟨.keyword .classKw, "class"⟩, ⟨.semicolon, ";"⟩,
          ⟨.variable, "$x"⟩, ⟨.objectOperator, "->"⟩, ⟨.identifier, "class"⟩,
          ⟨.doubleColon, "::"⟩, ⟨.identifier, "f"⟩, ⟨.lParen, "("⟩, ⟨.rParen, ")"⟩,
          ⟨.semicolon, ";"⟩] := by
      cbv
    exact Fixer.fixFile_eq_of_tokenize hts rfl (show isBlankText "P" = false by decide) rfl
      (by decide) (by decide)

end PhpImports
