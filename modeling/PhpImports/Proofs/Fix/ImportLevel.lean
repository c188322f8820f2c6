import PhpImports.Proofs.Fix.ReadBack
import PhpImports.Proofs.Names.NamespacePlace

/-!
# PhpImports — the braces around new imports

New imports stand behind the last import of the unit, and then no brace is open around
them but those of namespace bodies. In a unit without imports they stand behind the
namespace declaration, and around this there may be any braces: a constant of a class may
be named `namespace`, and the scan for the namespace takes its definition for a
declaration. The imports are put into the class then.

## Results

* `Fixer.fix_atImportLevel_iff`  — when imports may stand where a fix puts them.
* `Fixer.fix_into_class`         — a unit whose imports are put into a class.
-/

namespace PhpImports

/-- Behind the last import further imports may stand. -/
theorem atImportLevel_of_lastEnd {ts : List Token} {e : Nat}
    (h : (importScan ts).lastEnd = some e) : (scanThrough ts e).atImportLevel = true := by
  obtain ⟨t, ht, hkind⟩ := getElem?_lastEnd h
  obtain ⟨pre, post, rfl, rfl⟩ := exists_cut ht
  have hanchor : AnchorAt pre t post := by
    refine ⟨.inl hkind, usesEndedBefore_of_semicolon post hkind, ?_⟩
    intro e he
    rw [h] at he
    exact (Option.some.inj he).symm
  exact hanchor.atImportLevel_of_lastEnd (by rw [h]; rfl)

/-- Imports that a fix puts in stand where imports may stand exactly in two cases. Either the unit
has imports already; or every brace around the `namespace` of its declaration, those closed in the
name apart, is the brace of a namespace body, and so is a brace at the end of the declaration. For
a name without braces and without another `namespace` it only matters where the declaration
begins. -/
theorem Fixer.fix_atImportLevel_iff (f : Fixer) {part : String}
    (hset : f.config.namespacePrefix = some part) (hblank : isBlankText part = false)
    {s : TokenSeq} {r : Fixed} (hfix : f.fix s = .ok r) (hins : r.inserted ≠ [])
    {ns : NamespaceDecl} (hns : namespaceDecl? s.tokens = some ns)
    {a : Nat} (ha : importAnchor ns (importScan s.tokens).lastEnd = a) :
    r.tokens = s.splice (a + 1) (importBlock (importSegments part ns.name) r.inserted) ∧
      (∃ pre word name stop post, Declares s.tokens ns pre word name stop post) ∧
      ∀ pre word name stop post, Declares s.tokens ns pre word name stop post →
        ((scanThrough s.tokens a).atImportLevel = true ↔
          (importScan s.tokens).lastEnd.isSome = true ∨
            ((scanThrough s.tokens pre.length).braces.drop
                (name.countP (·.kind = .rBrace))).all (· = .namespaceBody) = true ∧
              (stop.kind = .lBrace →
                (scanThrough s.tokens (ns.stop - 1)).awaitsBody = true)) ∧
        ((∀ t ∈ name, t.kind ≠ .keyword .namespaceKw ∧ t.kind ≠ .rBrace) →
          ((scanThrough s.tokens a).atImportLevel = true ↔
            (importScan s.tokens).lastEnd.isSome = true ∨
              (scanThrough s.tokens pre.length).atImportLevel = true)) := by
  rw [Fixer.fix_eq_ok hset hblank, Except.ok.injEq] at hfix
  subst hfix ha
  obtain ⟨hinserted, htokens⟩ := fixTokens_inserted hns hins
  refine ⟨by rw [htokens, hinserted, TokenSeq.addImports_eq_splice], exists_declares hns, ?_⟩
  intro pre word name stop post hdecl
  cases hlast : (importScan s.tokens).lastEnd with
  | some e =>
    have hlevel : (scanThrough s.tokens (importAnchor ns (some e))).atImportLevel = true :=
      atImportLevel_of_lastEnd hlast
    simp [hlevel]
  | none =>
    show ((scanThrough s.tokens ns.stop).atImportLevel = true ↔ _) ∧ (_ →
      ((scanThrough s.tokens ns.stop).atImportLevel = true ↔ _))
    refine ⟨?_, ?_⟩
    · rw [hdecl.atImportLevel_iff hlast]
      simp
    · intro hname
      rw [hdecl.atImportLevel_iff_word hlast hname]
      simp

/-- A unit without imports, with its code in the body of the namespace. -/
def enclosedUnit : TokenSeq :=
  .ofList [⟨.openTag, "<?php "⟩, ⟨.keyword .namespaceKw, "namespace"⟩, ⟨.whitespace, " "⟩,
    ⟨.identifier, "A"⟩, ⟨.lBrace, "\x7b"⟩, ⟨.keyword .classKw, "class"⟩, ⟨.whitespace, " "⟩,
    ⟨.identifier, "C"⟩, ⟨.lBrace, "\x7b"⟩, ⟨.rBrace, "\x7d"⟩, ⟨.keyword .newKw, "new"⟩,
    ⟨.whitespace, " "⟩, ⟨.identifier, "B"⟩, ⟨.semicolon, ";"⟩, ⟨.rBrace, "\x7d"⟩]

theorem Fixer.fix_atImportLevel_enclosed :
    namespaceDecl? enclosedUnit.tokens = some ⟨"A", 4⟩ ∧
      (importScan enclosedUnit.tokens).lastEnd = none ∧
      (scanThrough enclosedUnit.tokens 1).atImportLevel = true ∧
      ∃ r, Fixer.fix { config := ⟨some "P"⟩ } enclosedUnit = .ok r ∧ r.inserted = ["B"] ∧
        r.tokens = enclosedUnit.splice 5 (importBlock (importSegments "P" "A") ["B"]) ∧
        (scanThrough enclosedUnit.tokens 4).atImportLevel = true := by
  have hns : namespaceDecl? enclosedUnit.tokens = some ⟨"A", 4⟩ := by decide
  have hlast : (importScan enclosedUnit.tokens).lastEnd = none := by decide
  have hword : (scanThrough enclosedUnit.tokens 1).atImportLevel = true := by decide
  have hfix := Fixer.fix_eq_ok (f := { config := ⟨some "P"⟩ }) rfl (by decide) enclosedUnit
  have hins : (fixTokens "P" enclosedUnit).inserted = ["B"] := by decide
  have hdecl : Declares enclosedUnit.tokens ⟨"A", 4⟩ [⟨.openTag, "<?php "⟩]
      ⟨.keyword .namespaceKw, "namespace"⟩ [⟨.whitespace, " "⟩, ⟨.identifier, "A"⟩]
      ⟨.lBrace, "\x7b"⟩ (enclosedUnit.tokens.drop 5) :=
    ⟨rfl, rfl, rfl, rfl, by decide, by decide, .inr rfl, rfl⟩
  obtain ⟨htokens, -, hlevel⟩ :=
    Fixer.fix_atImportLevel_iff { config := ⟨some "P"⟩ } rfl (by decide) hfix
      (by rw [hins]; simp) hns (a := 4) (by rw [hlast]; rfl)
  rw [hins] at htokens
  have hstands := (hlevel _ _ _ _ _ hdecl).2 (by decide)
  exact ⟨hns, hlast, hword, _, hfix, hins, htokens, hstands.2 (.inr hword)⟩

/-- A constant named `namespace` in a class, outside of all namespaces. -/
def constantTokens : List Token :=
  [⟨.openTag, "<?php"⟩, ⟨.whitespace, " "⟩, ⟨.keyword .classKw, "class"⟩, ⟨.whitespace, " "⟩,
    ⟨.identifier, "A"⟩, ⟨.lBrace, "\x7b"⟩, ⟨.keyword .constKw, "const"⟩, ⟨.whitespace, " "⟩,
    ⟨.keyword .namespaceKw, "NAMESPACE"⟩, ⟨.eq, "="⟩, ⟨.lNumber, "1"⟩, ⟨.semicolon, ";"⟩,
    ⟨.rBrace, "\x7d"⟩, ⟨.keyword .newKw, "new"⟩, ⟨.whitespace, " "⟩, ⟨.identifier, "B"⟩,
    ⟨.semicolon, ";"⟩]

/-- The definition of a constant named `namespace` is taken for the declaration of a namespace, and
the import is put into the class behind it. -/
theorem Fixer.fix_into_class :
    TokenSeq.ofSource "<?php class A\x7bconst NAMESPACE=1;\x7dnew B;" = .ofList constantTokens ∧
      namespaceDecl? constantTokens = some ⟨"=1", 11⟩ ∧
      importAnchor ⟨"=1", 11⟩ (importScan constantTokens).lastEnd = 11 ∧
      (scanThrough constantTokens 11).atImportLevel = false ∧
      ∃ r, Fixer.fix { config := ⟨some "P"⟩ }
          (.ofSource "<?php class A\x7bconst NAMESPACE=1;\x7dnew B;") = .ok r ∧
        r.inserted = ["B"] ∧
        r.tokens.source = "<?php class A\x7bconst NAMESPACE=1;\nuse =1\\B;\x7dnew B;" := by
  have hts : tokenize "<?php class A\x7bconst NAMESPACE=1;\x7dnew B;" = constantTokens := by
    decide +kernel
  have hsource : TokenSeq.ofSource "<?php class A\x7bconst NAMESPACE=1;\x7dnew B;" =
      .ofList constantTokens := by
    rw [TokenSeq.ofSource, hts]
  refine ⟨hsource, by decide, by decide, by decide, fixTokens "P" (.ofList constantTokens), ?_,
    by decide, by decide⟩
  rw [hsource]
  exact Fixer.fix_eq_ok rfl (by decide) _

end PhpImports
