import PhpImports.Proofs.Fix.ReadBack
import PhpImports.Proofs.Names.NamespaceBlock

/-!
# PhpImports — what a fix leaves alone

A fix puts imports behind a `;` or a `{`, and this may be anywhere: inside parentheses
that are open, in the head of a class, or before the namespace declaration. Even so the
unit uses and declares the same names as before, scan by scan, and has the same
namespace. Only the end of the namespace declaration moves, by the number of new tokens,
if the imports come before it.

## Results

* `declaresNamespace_importBlock` — generated imports declare no namespace.
* `namespaceDecl?_fixTokens`      — the namespace of a fixed unit.
* `Fixer.fix_frame`               — what a fix does not change.
-/

namespace PhpImports

-- ---------------------------------------------------------------------------
-- Generated imports declare no namespace
-- ---------------------------------------------------------------------------

theorem declaresNamespace_eq_false {ts : List Token}
    (h : ∀ t ∈ ts, t.kind ≠ .keyword .namespaceKw) : declaresNamespace ts = false := by
  induction ts with
  | nil => rfl
  | cons t ts ih =>
    rw [List.forall_mem_cons] at h
    rw [declaresNamespace, ih h.2]
    simp [h.1]

/-- All words of a generated import but its `use` are identifiers, whatever they spell. -/
theorem kind_ne_of_mem_importStatement {segments : List String} {name : String} {t : Token}
    (ht : t ∈ importStatement segments name) : t.kind ≠ .keyword .namespaceKw := by
  rw [importStatement, List.append_assoc, List.mem_append, List.mem_append] at ht
  rcases ht with ht | ht | ht
  · simp only [List.mem_cons, List.not_mem_nil, or_false] at ht
    rcases ht with rfl | rfl | rfl <;> simp
  · rcases kind_of_mem_segments ht with h | h <;> rw [h] <;> simp
  · simp only [List.mem_cons, List.not_mem_nil, or_false] at ht
    rcases ht with rfl | rfl <;> simp

theorem declaresNamespace_importBlock (segments names : List String) :
    declaresNamespace (meaningful (importBlock segments names)) = false := by
  apply declaresNamespace_eq_false
  intro t ht
  obtain ⟨name, -, hname⟩ := List.mem_flatMap.1 (List.mem_filter.1 ht).1
  exact kind_ne_of_mem_importStatement hname

-- ---------------------------------------------------------------------------
-- The fixed unit
-- ---------------------------------------------------------------------------

theorem length_fixTokens {part : String} {s : TokenSeq} {ns : NamespaceDecl}
    (hns : namespaceDecl? s.tokens = some ns) (hins : (fixTokens part s).inserted ≠ []) :
    (fixTokens part s).tokens.length = s.length +
      (importBlock (importSegments part ns.name) (missingNames s.tokens)).length := by
  rw [(fixTokens_inserted hns hins).2, TokenSeq.addImports_eq_splice, TokenSeq.length_splice]

section Inserted

variable {part : String} {s : TokenSeq} {ns : NamespaceDecl}
  (hns : namespaceDecl? s.tokens = some ns) (hins : (fixTokens part s).inserted ≠ [])

include hns hins

theorem inert_importBlock_missing :
    Inert (meaningful (importBlock (importSegments part ns.name) (missingNames s.tokens))) := by
  rw [(fixTokens_inserted hns hins).1] at hins
  exact .flatMap (inert_importStatement _) hins

theorem sameUsages_fixTokens : SameUsages s.tokens (fixTokens part s).tokens.tokens := by
  obtain ⟨t, ht, hkind⟩ := getElem?_importAnchor hns
  obtain ⟨pre, post, hcut, hlength⟩ := exists_cut ht
  have hthrough := inserted_meaningful pre post
    (importBlock (importSegments part ns.name) (missingNames s.tokens)) hkind
  rw [← hcut, ← tokens_fixTokens hns hins hcut hlength] at hthrough
  exact hthrough.sameUsages (inert_importBlock_missing hns hins)

theorem namespaceDecl?_fixTokens :
    namespaceDecl? (fixTokens part s).tokens.tokens =
      some (if importAnchor ns (importScan s.tokens).lastEnd < ns.stop then
        ns.shift (importBlock (importSegments part ns.name) (missingNames s.tokens)).length
      else ns) := by
  obtain ⟨t, ht, hkind⟩ := getElem?_importAnchor hns
  obtain ⟨pre, post, hcut, hlength⟩ := exists_cut ht
  have hunit : namespaceDecl? (pre ++ t :: post) = some ns := by rw [← hcut, hns]
  rw [tokens_fixTokens hns hins hcut hlength,
    namespaceDecl?_insert hkind (inert_importBlock_missing hns hins) hunit, hlength,
    declaresNamespace_importBlock]
  split
  · rfl
  · rfl

end Inserted

/-- A fix changes neither what a unit uses and declares nor the name of its namespace. The
declaration of the namespace ends where it did, or `n` tokens further on if its end lies behind
the anchor, where `n` is the number of tokens that were put in. -/
theorem Fixer.fix_frame (f : Fixer) {part : String} (hset : f.config.namespacePrefix = some part)
    (hblank : isBlankText part = false) (s : TokenSeq) :
    ∃ r n, f.fix s = .ok r ∧ r.tokens.length = s.length + n ∧
      SameUsages s.tokens r.tokens.tokens ∧
      namespaceDecl? r.tokens.tokens = (namespaceDecl? s.tokens).map fun ns =>
        if importAnchor ns (importScan s.tokens).lastEnd < ns.stop then
          ⟨ns.name, ns.stop + n⟩
        else ns := by
  have hfix := Fixer.fix_eq_ok hset hblank s
  by_cases hins : (fixTokens part s).inserted = []
  · -- the unit stays as it is
    refine ⟨_, 0, hfix, ?_, ?_, ?_⟩
    · rw [fixTokens_eq_of_inserted hins, Nat.add_zero]
    · rw [fixTokens_eq_of_inserted hins]
      exact .rfl
    · rw [fixTokens_eq_of_inserted hins]
      simp
  · cases hns : namespaceDecl? s.tokens with
    | none => exact absurd (by simp [fixTokens, hns]) hins
    | some ns =>
      exact ⟨_, _, hfix, length_fixTokens hns hins, sameUsages_fixTokens hns hins,
        namespaceDecl?_fixTokens hns hins⟩

/-- A unit with an import inside the parameters of a function, before its namespace is declared. -/
def scatteredUnit : TokenSeq :=
  .ofList [⟨.openTag, "<?php "⟩, ⟨.keyword .functionKw, "function"⟩, ⟨.identifier, "f"⟩,
    ⟨.lParen, "("⟩, ⟨.semicolon, ";"⟩, ⟨.keyword .useKw, "use"⟩, ⟨.identifier, "X"⟩,
    ⟨.semicolon, ";"⟩, ⟨.identifier, "B"⟩, ⟨.variable, "$b"⟩, ⟨.rParen, ")"⟩, ⟨.colon, ":"⟩,
    ⟨.identifier, "C"⟩, ⟨.semicolon, ";"⟩, ⟨.keyword .namespaceKw, "namespace"⟩,
    ⟨.identifier, "A"⟩, ⟨.semicolon, ";"⟩]

theorem Fixer.fix_frame_scatteredUnit :
    isBlankText "P" = false ∧ (importScan scatteredUnit.tokens).lastEnd = some 7 ∧
      ∃ r, Fixer.fix { config := ⟨some "P"⟩ } scatteredUnit = .ok r ∧ r.inserted = ["B", "C"] ∧
        signatureTypes r.tokens.tokens = ["B", "C"] ∧
        namespaceDecl? r.tokens.tokens = some ⟨"A", 16 + 14⟩ := by
  have hend : (importScan scatteredUnit.tokens).lastEnd = some 7 := by decide
  have hns : namespaceDecl? scatteredUnit.tokens = some ⟨"A", 16⟩ := by decide
  have htypes : signatureTypes scatteredUnit.tokens = ["B", "C"] := by decide
  have hins : (fixTokens "P" scatteredUnit).inserted = ["B", "C"] := by decide
  have hlen : (fixTokens "P" scatteredUnit).tokens.length = scatteredUnit.length + 14 := by decide
  obtain ⟨r, n, hfix, hn, hsame, hmoved⟩ :=
    Fixer.fix_frame { config := ⟨some "P"⟩ } rfl (by decide) scatteredUnit
  have hr : r = fixTokens "P" scatteredUnit :=
    (Except.ok.inj ((Fixer.fix_eq_ok rfl (by decide) _).symm.trans hfix)).symm
  rw [hr, hlen, Nat.add_left_cancel_iff] at hn
  rw [hns, hend, ← hn] at hmoved
  exact ⟨by decide, hend, r, hfix, by rw [hr, hins], by rw [hsame.signatureTypes_eq, htypes], hmoved⟩

end PhpImports
