import PhpImports.Fix.Basic
import PhpImports.Proofs.Names.ImportRun
import PhpImports.Proofs.Names.Segments
import PhpImports.Proofs.Names.Used

/-!
# PhpImports — what a fix does to a unit

With a prefix that is not blank a fix always succeeds. Either it leaves the unit as it
is, because the unit has no namespace or lacks no import, or it puts in one import for
each missing name behind the anchor: the last import, or else the end of the namespace
declaration. All tokens of the unit stay, in their order.

## Results

* `Fixer.fixInPlace_on_of_ok`, `Fixer.fixInPlace_on_of_error` — what a fix leaves of a unit.
* `sourceText_importBlock` — the text of generated imports.
* `removes_importPath` — the path that they name.
* `Fixer.fix_spec` — what a fix does, case by case.
-/

namespace PhpImports

-- ---------------------------------------------------------------------------
-- A fix as a function
-- ---------------------------------------------------------------------------

/-- What a fix makes of a unit; `part` is taken out of its namespace. -/
def fixTokens (part : String) (s : TokenSeq) : Fixed :=
  let missing := missingNames s.tokens
  match namespaceDecl? s.tokens with
  | none => ⟨s, []⟩
  | some ns =>
    if missing.isEmpty then ⟨s, []⟩
    else ⟨s.addImports part missing ns (importScan s.tokens).lastEnd, missing⟩

theorem Config.requirePrefix_eq_ok {c : Config} {part : String}
    (hset : c.namespacePrefix = some part) (hblank : isBlankText part = false) :
    c.requirePrefix = .ok part := by
  simp [requirePrefix, hset, hblank]

theorem Config.requirePrefix_eq_error {c : Config}
    (hnone : ∀ part ∈ c.namespacePrefix, isBlankText part = true) :
    c.requirePrefix = .error (.missing prefixOption) := by
  rw [requirePrefix]
  cases hset : c.namespacePrefix with
  | none => rfl
  | some part => simp [hnone part hset]

namespace Fixer

variable {f : Fixer} {part : String}

/-- The prefix is asked for first: without one, the unit is not touched. -/
theorem fixInPlace_on_of_error {e : ConfigError} (h : f.config.requirePrefix = .error e)
    (s : TokenSeq) : f.fixInPlace.on s = (.error e, s) := by
  rw [fixInPlace, h]
  rfl

theorem fixInPlace_on_of_ok (h : f.config.requirePrefix = .ok part) (s : TokenSeq) :
    f.fixInPlace.on s = (.ok (fixTokens part s).inserted, (fixTokens part s).tokens) := by
  unfold fixInPlace fixTokens
  rw [h]
  -- with the prefix at hand and the unit read, the pass comes to its first choice
  change StateT.run (ExceptT.run (ite _ _ _)) s = _
  split
  · next hused =>
    have hmissing : missingNames s.tokens = [] := by
      rw [missingNames, List.isEmpty_iff.1 hused, List.filter_nil]
    rw [hmissing]
    cases namespaceDecl? s.tokens <;> rfl
  · cases namespaceDecl? s.tokens with
    | none => rfl
    | some ns =>
      dsimp only
      split <;> rfl

theorem fix_eq (f : Fixer) (s : TokenSeq) :
    f.fix s =
      match f.config.requirePrefix with
      | .ok part => .ok (fixTokens part s)
      | .error e => .error e := by
  rw [fix]
  cases h : f.config.requirePrefix with
  | ok part => rw [fixInPlace_on_of_ok h]; rfl
  | error e => rw [fixInPlace_on_of_error h]; rfl

theorem fix_eq_ok (hset : f.config.namespacePrefix = some part)
    (hblank : isBlankText part = false) (s : TokenSeq) : f.fix s = .ok (fixTokens part s) := by
  rw [fix_eq, Config.requirePrefix_eq_ok hset hblank]

theorem fix_eq_error (hnone : ∀ part ∈ f.config.namespacePrefix, isBlankText part = true)
    (s : TokenSeq) : f.fix s = .error (.missing prefixOption) := by
  rw [fix_eq, Config.requirePrefix_eq_error hnone]

end Fixer

-- ---------------------------------------------------------------------------
-- The text of generated imports
-- ---------------------------------------------------------------------------

theorem flatMap_pieces (sep : Char) (cs : List Char) :
    (pieces sep cs).flatMap (· ++ [sep]) = cs ++ [sep] := by
  have hjoin : ∀ l : List (List Char), l ≠ [] →
      l.flatMap (· ++ [sep]) = [sep].intercalate l ++ [sep] := by
    intro l hl
    induction l with
    | nil => exact absurd rfl hl
    | cons x xs ih =>
      cases xs with
      | nil => simp
      | cons y ys =>
        rw [List.flatMap_cons, ih (by simp), List.intercalate_cons_cons]
        simp
  rw [hjoin _ (pieces_ne_nil sep cs), intercalate_pieces]

/-- The text that generated imports name before the separator and the name itself. -/
def importPath (part ns : String) : String :=
  String.ofList (removeAll part.toList ns.toList)

/-- The path is the namespace less the occurrences of the configured text. -/
theorem removes_importPath {part : String} (hpart : part ≠ "") (ns : String) :
    Removes part.toList ns.toList (importPath part ns).toList := by
  rw [removes_iff (by simpa using hpart), importPath, String.toList_ofList]

theorem toList_sourceText_importStatement (part ns name : String) :
    (importStatement (importSegments part ns) name).flatMap (·.text.toList) =
      "\nuse ".toList ++ (importPath part ns).toList ++ '\\' :: name.toList ++ [';'] := by
  have hsegments : ((importSegments part ns).flatMap fun s =>
        [(⟨.identifier, s⟩ : Token), ⟨.nsSeparator, "\\"⟩]).flatMap (·.text.toList) =
      (importPath part ns).toList ++ ['\\'] := by
    rw [importPath, String.toList_ofList, show '\\' = separator from rfl, ← flatMap_pieces,
      importSegments, List.flatMap_assoc, List.flatMap_map]
    simp only [List.flatMap_cons, List.flatMap_nil, String.toList_ofList, List.append_nil]
    rfl
  rw [importStatement, List.flatMap_append, List.flatMap_append, hsegments]
  simp

/-- The text of generated imports: each on a line of its own. -/
theorem sourceText_importBlock (part ns : String) (names : List String) :
    sourceText (importBlock (importSegments part ns) names) =
      String.join (names.map fun m => "\nuse " ++ importPath part ns ++ "\\" ++ m ++ ";") := by
  apply String.toList_inj.1
  rw [toList_sourceText, importBlock, List.flatMap_assoc, String.toList_join, List.flatMap_map]
  simp only [toList_sourceText_importStatement, String.toList_append]
  simp

-- ---------------------------------------------------------------------------
-- The outcome
-- ---------------------------------------------------------------------------

/-- The unit after a fix, if imports were put in: `ns` is the namespace of the unit `s`, and
`part` is taken out of it. -/
structure Extends (part : String) (ns : NamespaceDecl) (s : TokenSeq) (r : Fixed) : Prop where
  inserted_eq : r.inserted =
    (usedNames s.tokens).filter fun n => n ∉ importedNames s.tokens ∧ n ∉ declaredTypes s.tokens
  inserted_ne_nil : r.inserted ≠ []
  nodup : r.inserted.Nodup
  not_reserved : ∀ n ∈ r.inserted, ∀ e : ReservedName, equalIgnoringCase e.spelling n = false
  /-- The anchor is a `;` or a `{` of the unit, and the imports follow it as one block. They name
  the namespace less the occurrences of `part`, from left to right. -/
  tokens_eq : ∃ a t block path, a = (importScan s.tokens).lastEnd.getD ns.stop ∧
    s.tokens[a]? = some t ∧ (t.kind = .semicolon ∨ t.kind = .lBrace) ∧
    r.tokens.tokens = s.tokens.take (a + 1) ++ block ++ s.tokens.drop (a + 1) ∧
    r.tokens = s.insertEach (a + 1) block ∧
    Removes part.toList ns.name.toList path.toList ∧
    sourceText block =
      String.join (r.inserted.map fun m => "\nuse " ++ path ++ "\\" ++ m ++ ";")

/-- The token behind which imports are put. -/
theorem getElem?_importAnchor {ts : List Token} {ns : NamespaceDecl}
    (h : namespaceDecl? ts = some ns) :
    ∃ t, ts[importAnchor ns (importScan ts).lastEnd]? = some t ∧
      (t.kind = .semicolon ∨ t.kind = .lBrace) := by
  cases hend : (importScan ts).lastEnd with
  | none => exact getElem?_stop h
  | some e =>
    obtain ⟨t, ht, hkind⟩ := getElem?_lastEnd hend
    exact ⟨t, ht, .inl hkind⟩

theorem extends_addImports {part : String} (hpart : part ≠ "") {s : TokenSeq}
    {ns : NamespaceDecl} (hns : namespaceDecl? s.tokens = some ns)
    (hmissing : missingNames s.tokens ≠ []) :
    Extends part ns s
      ⟨s.addImports part (missingNames s.tokens) ns (importScan s.tokens).lastEnd,
        missingNames s.tokens⟩ := by
  obtain ⟨t, ht, hkind⟩ := getElem?_importAnchor hns
  refine ⟨missingNames_eq _, hmissing, ?_, ?_, ?_⟩
  · exact (nodup_usedNames _).filter _
  · intro n hn
    exact isReserved_eq_false_iff.1 (mentioned_of_mem_usedNames (mem_missingNames.1 hn).1).1
  · refine ⟨_, t, _, importPath part ns.name, rfl, ht, hkind, ?_, rfl,
      removes_importPath hpart ns.name, sourceText_importBlock part ns.name _⟩
    rw [TokenSeq.addImports_eq_splice]
    rfl

theorem ne_empty_of_not_blank {part : String} (h : isBlankText part = false) : part ≠ "" := by
  rintro rfl
  simp [isBlankText] at h

/-- A fix with a prefix that is not blank succeeds. A unit without a namespace, or whose used
names are all imported or declared, stays as it is; any other unit is extended. -/
theorem Fixer.fix_spec (f : Fixer) {part : String} (hset : f.config.namespacePrefix = some part)
    (hblank : isBlankText part = false) (s : TokenSeq) :
    ∃ r, f.fix s = .ok r ∧
      ((namespaceDecl? s.tokens = none ∨
          ∀ n ∈ usedNames s.tokens, n ∈ importedNames s.tokens ∨ n ∈ declaredTypes s.tokens) →
        r = ⟨s, []⟩) ∧
      ∀ ns, namespaceDecl? s.tokens = some ns →
        ¬ (∀ n ∈ usedNames s.tokens, n ∈ importedNames s.tokens ∨ n ∈ declaredTypes s.tokens) →
        Extends part ns s r := by
  refine ⟨fixTokens part s, Fixer.fix_eq_ok hset hblank s, ?_, ?_⟩
  · intro h
    unfold fixTokens
    dsimp only
    cases hns : namespaceDecl? s.tokens with
    | none => rfl
    | some ns =>
      have hnone : missingNames s.tokens = [] :=
        missingNames_eq_nil_iff.2 (h.resolve_left (by simp [hns]))
      simp [hnone]
  · intro ns hns hsome
    have hmissing : missingNames s.tokens ≠ [] := fun h => hsome (missingNames_eq_nil_iff.1 h)
    have hfix : fixTokens part s =
        ⟨s.addImports part (missingNames s.tokens) ns (importScan s.tokens).lastEnd,
          missingNames s.tokens⟩ := by
      simp [fixTokens, hns, hmissing]
    rw [hfix]
    exact extends_addImports (ne_empty_of_not_blank hblank) hns hmissing

/-- A unit that instantiates a class of its own namespace without importing it. -/
def lackingUnit : TokenSeq :=
  .ofList [⟨.openTag, "<?php"⟩, ⟨.whitespace, " "⟩, ⟨.keyword .namespaceKw, "namespace"⟩,
    ⟨.whitespace, " "⟩, ⟨.identifier, "T"⟩, ⟨.nsSeparator, "\\"⟩, ⟨.identifier, "A"⟩,
    ⟨.semicolon, ";"⟩, ⟨.keyword .newKw, "new"⟩, ⟨.whitespace, " "⟩, ⟨.identifier, "B"⟩,
    ⟨.semicolon, ";"⟩]

theorem Fixer.fix_spec_lackingUnit :
    isBlankText "T\\" = false ∧
      ∃ r, Fixer.fix { config := ⟨some "T\\"⟩ } lackingUnit = .ok r ∧
        Extends "T\\" ⟨"T\\A", 7⟩ lackingUnit r ∧ r.inserted = ["B"] ∧
        r.tokens.source = "<?php namespace T\\A;\nuse A\\B;new B;" := by
  obtain ⟨r, hr, -, h⟩ := Fixer.fix_spec { config := ⟨some "T\\"⟩ } rfl (by decide) lackingUnit
  have hext : Extends "T\\" ⟨"T\\A", 7⟩ lackingUnit r := h _ (by decide) (by decide)
  have hins : r.inserted = ["B"] := hext.inserted_eq.trans (by decide)
  obtain ⟨a, t, block, path, ha, -, -, htokens, -, hpath, htext⟩ := hext.tokens_eq
  have ha : a = 7 := ha.trans (by decide)
  have hpath : path = "A" := by
    rw [← String.toList_inj, ← (removes_iff (by decide)).1 hpath]
    decide
  refine ⟨by decide, r, hr, hext, hins, ?_⟩
  rw [TokenSeq.source, htokens, sourceText_append, sourceText_append, htext, hins, hpath, ha]
  decide

end PhpImports
