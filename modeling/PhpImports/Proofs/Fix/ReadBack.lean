import PhpImports.Proofs.Fix.Outcome
import PhpImports.Proofs.Names.Anchor

/-!
# PhpImports — generated imports are read back

The imports that a fix puts into a unit are found again by the scan for imports, in
their order and behind those that were there before, if every `use` of the unit is ended
and they stand where imports may stand. Nothing is missing then, so that a second fix
has nothing to do.

## Results

* `isImport_importStatement`, `inert_importStatement` — the generated tokens.
* `exists_anchorAt` — the unit cut where imports are put in.
* `missingNames_extended` — what is missing after imports were put in.
* `Fixer.fix_reads_back` — a second fix finds the imports of the first.
-/

namespace PhpImports

-- ---------------------------------------------------------------------------
-- The generated tokens
-- ---------------------------------------------------------------------------

/-- The segments of a path, each with the separator behind it. -/
theorem kind_of_mem_segments {segments : List String} {t : Token}
    (ht : t ∈ segments.flatMap fun s => [(⟨.identifier, s⟩ : Token), ⟨.nsSeparator, "\\"⟩]) :
    t.kind = .identifier ∨ t.kind = .nsSeparator := by
  obtain ⟨s, -, hs⟩ := List.mem_flatMap.1 ht
  simp only [List.mem_cons, List.not_mem_nil, or_false] at hs
  rcases hs with rfl | rfl
  · exact .inl rfl
  · exact .inr rfl

/-- A generated statement is an import of its name. -/
theorem isImport_importStatement (segments : List String) (name : String) :
    IsImport (importStatement segments name) (some name) := by
  let links := segments.flatMap fun s => [(⟨.identifier, s⟩ : Token), ⟨.nsSeparator, "\\"⟩]
  have hlinks : meaningful links = links := by
    apply List.filter_eq_self.2
    intro t ht
    rcases kind_of_mem_segments ht with h | h <;> rw [Token.isMeaningful, h] <;> rfl
  refine ⟨[⟨.whitespace, "\n"⟩, ⟨.keyword .useKw, "use"⟩, ⟨.whitespace, " "⟩] ++ links ++
    [⟨.identifier, name⟩], ⟨.keyword .useKw, "use"⟩, links ++ [⟨.identifier, name⟩],
    ⟨.semicolon, ";"⟩, ?_, ?_, rfl, rfl, ?_, ?_⟩
  · rw [importStatement, List.append_assoc _ [_] [_]]
    rfl
  · rw [meaningful_append, meaningful_append, hlinks]
    rfl
  · intro t ht
    rcases List.mem_append.1 ht with ht | ht
    · rcases kind_of_mem_segments ht with h | h <;> rw [h] <;> rfl
    · rw [List.mem_singleton.1 ht]
      rfl
  · rw [lastName_concat]
    rfl

theorem inert_importStatement (segments : List String) (name : String) :
    Inert (meaningful (importStatement segments name)) := by
  have hend : Inert [(⟨.identifier, name⟩ : Token), ⟨.semicolon, ";"⟩] :=
    .word rfl (.inr rfl) (.stop rfl)
  have hpath : Inert (meaningful ((segments.flatMap fun s =>
      [(⟨.identifier, s⟩ : Token), ⟨.nsSeparator, "\\"⟩]) ++
      [⟨.identifier, name⟩, ⟨.semicolon, ";"⟩])) := by
    induction segments with
    | nil => exact hend
    | cons s segments ih => exact .word rfl (.inl rfl) (.link rfl ih)
  rw [importStatement, List.append_assoc, meaningful_append]
  exact .link rfl hpath

-- ---------------------------------------------------------------------------
-- The extended unit
-- ---------------------------------------------------------------------------

/-- A unit with a namespace, cut at the token behind which imports are put. Only before a brace
there can be a `use` without an end. -/
theorem exists_anchorAt {ts : List Token} {ns : NamespaceDecl} (hns : namespaceDecl? ts = some ns)
    (hended : ∀ t, ts[importAnchor ns (importScan ts).lastEnd]? = some t → t.kind = .lBrace →
      UsesEndedBefore (importAnchor ns (importScan ts).lastEnd) ts) :
    ∃ pre t post, ts = pre ++ t :: post ∧
      pre.length = importAnchor ns (importScan ts).lastEnd ∧ AnchorAt pre t post := by
  obtain ⟨t, ht, hkind⟩ := getElem?_importAnchor hns
  obtain ⟨pre, post, hcut, hlength⟩ := exists_cut ht
  refine ⟨pre, t, post, hcut, hlength, hkind, ?_, ?_⟩
  · rcases hkind with hkind | hkind
    · exact usesEndedBefore_of_semicolon _ hkind
    · rw [← hcut, hlength]
      exact hended t ht hkind
  · intro e he
    rw [← hcut] at he
    rw [hlength, importAnchor, he, Option.getD_some]

/-- A unit in which all missing names are imported lacks nothing, if it uses and declares what it
did before. -/
theorem missingNames_extended {ts us : List Token}
    (hused : usedNames us = usedNames ts) (hdeclared : declaredTypes us = declaredTypes ts)
    (himported : ∀ n, n ∈ importedNames ts ∨ n ∈ missingNames ts → n ∈ importedNames us) :
    missingNames us = [] := by
  rw [missingNames_eq_nil_iff, hused, hdeclared]
  intro n hn
  by_cases hmissing : n ∈ missingNames ts
  · exact .inl (himported n (.inr hmissing))
  · rw [mem_missingNames] at hmissing
    by_cases hdecl : n ∈ declaredTypes ts
    · exact .inr hdecl
    · by_cases himp : n ∈ importedNames ts
      · exact .inl (himported n (.inl himp))
      · exact absurd ⟨hn, himp, hdecl⟩ hmissing

theorem fixTokens_eq_of_missingNames {part : String} {s : TokenSeq}
    (h : missingNames s.tokens = []) : fixTokens part s = ⟨s, []⟩ := by
  unfold fixTokens
  cases namespaceDecl? s.tokens with
  | none => rfl
  | some ns => simp [h]

theorem fixTokens_eq_of_inserted {part : String} {s : TokenSeq}
    (h : (fixTokens part s).inserted = []) : (fixTokens part s).tokens = s := by
  unfold fixTokens at h ⊢
  cases hns : namespaceDecl? s.tokens with
  | none => rfl
  | some ns =>
    simp only [hns] at h ⊢
    split
    · rfl
    · next hmissing =>
      rw [if_neg hmissing] at h
      exact absurd (List.isEmpty_iff.2 h) hmissing

/-- What a fix that puts in imports makes of a unit. -/
theorem fixTokens_inserted {part : String} {s : TokenSeq} {ns : NamespaceDecl}
    (hns : namespaceDecl? s.tokens = some ns) (hins : (fixTokens part s).inserted ≠ []) :
    (fixTokens part s).inserted = missingNames s.tokens ∧
      (fixTokens part s).tokens =
        s.addImports part (missingNames s.tokens) ns (importScan s.tokens).lastEnd := by
  unfold fixTokens at hins ⊢
  simp only [hns] at hins ⊢
  split at hins
  · exact absurd rfl hins
  · next h => rw [if_neg h]; exact ⟨rfl, rfl⟩

/-- The tokens of the fixed unit: the imports stand behind the anchor. -/
theorem tokens_fixTokens {part : String} {s : TokenSeq} {ns : NamespaceDecl}
    (hns : namespaceDecl? s.tokens = some ns) (hins : (fixTokens part s).inserted ≠ [])
    {pre post : List Token} {t : Token} (hcut : s.tokens = pre ++ t :: post)
    (hlength : pre.length = importAnchor ns (importScan s.tokens).lastEnd) :
    (fixTokens part s).tokens.tokens =
      pre ++ t :: (importBlock (importSegments part ns.name) (missingNames s.tokens) ++ post) := by
  rw [(fixTokens_inserted hns hins).2, TokenSeq.addImports_eq_splice, TokenSeq.splice, ← hlength]
  generalize importBlock (importSegments part ns.name) (missingNames s.tokens) = block
  show s.tokens.take (pre.length + 1) ++ block ++ s.tokens.drop (pre.length + 1) = _
  rw [hcut, List.append_cons, List.take_left' (by simp), List.drop_left' (by simp)]
  simp

/-- The imports that a fix puts in are read back behind those of the unit, and a second fix
leaves the unit as it is. -/
theorem Fixer.fix_reads_back (f : Fixer) {part : String}
    (hset : f.config.namespacePrefix = some part) (hblank : isBlankText part = false)
    {s : TokenSeq} {r : Fixed} (hfix : f.fix s = .ok r) (hins : r.inserted ≠ [])
    {ns : NamespaceDecl} (hns : namespaceDecl? s.tokens = some ns)
    (hended : UsesEnded s.tokens)
    (hlevel : (importScan s.tokens).lastEnd.isSome = true ∨
      (scanThrough s.tokens ns.stop).atImportLevel = true) :
    importedNames r.tokens.tokens = importedNames s.tokens ++ r.inserted ∧
      (importScan r.tokens.tokens).lastEnd =
        some ((importScan s.tokens).lastEnd.getD ns.stop +
          r.inserted.length * (5 + 2 * (importSegments part ns.name).length)) ∧
      ∀ (g : Fixer) (part' : String), g.config.namespacePrefix = some part' →
        isBlankText part' = false → g.fix r.tokens = .ok ⟨r.tokens, []⟩ := by
  rw [Fixer.fix_eq_ok hset hblank, Except.ok.injEq] at hfix
  subst hfix
  obtain ⟨pre, t, post, hcut, hlength, hanchor⟩ := exists_anchorAt hns fun _ _ _ => hended.before _
  have hunit := tokens_fixTokens hns hins hcut hlength
  have hinserted := (fixTokens_inserted hns hins).1
  rw [hinserted] at hins
  generalize hblock : importBlock (importSegments part ns.name) (missingNames s.tokens) = block
    at hunit
  have hlist : ImportList block ((missingNames s.tokens).map some) := by
    rw [← hblock]
    exact .flatMap (isImport_importStatement _) _
  have hinert : Inert (meaningful block) := by
    rw [← hblock]
    exact .flatMap (inert_importStatement _) hins
  have hblockLength : block.length =
      (missingNames s.tokens).length * (5 + 2 * (importSegments part ns.name).length) := by
    rw [← hblock, length_importBlock]
  -- the anchor is the end of the last import or that of the namespace declaration
  have hat : (scanThrough (pre ++ t :: post) pre.length).atImportLevel = true := by
    rcases hlevel with hsome | hat
    · exact hanchor.atImportLevel_of_lastEnd (by rw [← hcut]; exact hsome)
    · cases hlast : (importScan s.tokens).lastEnd with
      | some e => exact hanchor.atImportLevel_of_lastEnd (by rw [← hcut, hlast]; rfl)
      | none =>
        rw [hlast] at hlength
        rw [← hcut, hlength]
        exact hat
  have hne : block ≠ [] := by
    rintro rfl
    cases hinert
  obtain ⟨hnames, hend⟩ := hanchor.importScan_imports hat hlist hne
  have hflat : ((missingNames s.tokens).map some).flatMap Option.toList =
      missingNames s.tokens := by
    rw [List.flatMap_map]
    simp
  -- every import of the unit is ended, so none comes behind the anchor
  have hlate : AnchorAt.lateNames pre t post = [] :=
    hanchor.lateNames_eq_nil (by rw [← hcut]; exact hended)
  have hbefore := hanchor.importedNames_eq
  rw [hlate, List.append_nil] at hbefore
  rw [hflat, hlate, List.append_nil, ← hbefore, ← hunit, ← hcut] at hnames
  rw [← hunit, hblockLength, hlength] at hend
  refine ⟨by rw [hinserted]; exact hnames, by rw [hinserted]; exact hend, ?_⟩
  intro g part' hset' hblank'
  -- the usages and declarations of the unit are not touched by the imports
  have hthrough := inserted_meaningful pre post block hanchor.kind
  rw [← hcut, ← hunit] at hthrough
  have hnothing : missingNames (fixTokens part s).tokens.tokens = [] := by
    apply missingNames_extended (hthrough.usedNames_eq hinert) (hthrough.declaredTypes_eq hinert)
    intro n hn
    rw [hnames]
    exact List.mem_append.2 hn
  rw [Fixer.fix_eq_ok hset' hblank', fixTokens_eq_of_missingNames hnothing]

/-- A unit with one import, in the body of its namespace. -/
def bracedUnit : TokenSeq :=
  .ofList [⟨.openTag, "<?php "⟩, ⟨.keyword .namespaceKw, "namespace"⟩, ⟨.whitespace, " "⟩,
    ⟨.identifier, "T"⟩, ⟨.nsSeparator, "\\"⟩, ⟨.identifier, "A"⟩, ⟨.lBrace, "\x7b"⟩,
    ⟨.keyword .useKw, "use"⟩, ⟨.whitespace, " "⟩, ⟨.identifier, "X"⟩, ⟨.nsSeparator, "\\"⟩,
    ⟨.identifier, "B"⟩, ⟨.semicolon, ";"⟩, ⟨.keyword .newKw, "new"⟩, ⟨.whitespace, " "⟩,
    ⟨.identifier, "B"⟩, ⟨.semicolon, ";"⟩, ⟨.identifier, "C"⟩, ⟨.doubleColon, "::"⟩,
    ⟨.identifier, "f"⟩, ⟨.semicolon, ";"⟩, ⟨.rBrace, "\x7d"⟩]

theorem Fixer.fix_reads_back_bracedUnit :
    UsesEnded bracedUnit.tokens ∧ (importScan bracedUnit.tokens).lastEnd = some 12 ∧
      ∃ r, Fixer.fix { config := ⟨some "T\\"⟩ } bracedUnit = .ok r ∧ r.inserted = ["C"] ∧
        importedNames r.tokens.tokens = ["B"] ++ ["C"] ∧
        (importScan r.tokens.tokens).lastEnd = some (12 + 1 * (5 + 2 * 1)) ∧
        Fixer.fix { config := ⟨some "P"⟩ } r.tokens = .ok ⟨r.tokens, []⟩ := by
  have hended : UsesEnded bracedUnit.tokens := by decide
  have hend : (importScan bracedUnit.tokens).lastEnd = some 12 := by decide
  have hfix := Fixer.fix_eq_ok (f := { config := ⟨some "T\\"⟩ }) rfl (by decide) bracedUnit
  have hins : (fixTokens "T\\" bracedUnit).inserted = ["C"] := by decide
  have himported : importedNames bracedUnit.tokens = ["B"] := by decide
  have hns : namespaceDecl? bracedUnit.tokens = some ⟨"T\\A", 6⟩ := by decide
  have hsegments : importSegments "T\\" "T\\A" = ["A"] := by decide
  obtain ⟨hnames, hlast, hagain⟩ := Fixer.fix_reads_back { config := ⟨some "T\\"⟩ } rfl
    (by decide) hfix (by rw [hins]; simp) hns hended
    (.inl (by rw [hend]; rfl))
  rw [hins, himported] at hnames
  rw [hins, hend, hsegments] at hlast
  exact ⟨hended, hend, _, hfix, hins, hnames, hlast,
    hagain { config := ⟨some "P"⟩ } "P" rfl (by decide)⟩

end PhpImports
