import PhpImports.Proofs.Fix.ReadBack
import PhpImports.Proofs.Names.NamespaceBlock
import PhpImports.Proofs.Names.Outline

/-!
# PhpImports — comments and whitespace do not matter

The scans that report positions see a unit without its trivia, and only the positions
they report are those of the whole unit. The rank of a position is what becomes of it
when trivia is taken out. Ranks lead from the scans of a unit to the scans of the same
unit without trivia, so a fix and the removal of trivia may be done in either order.

## Results

* `rank`, `placed_meaningful`  — positions with and without trivia.
* `lastEnd_meaningful`, `namespaceDecl?_meaningful` — the scans without trivia.
* `fixTokens_meaningful`       — a fix without trivia.
* `Fixer.fix_noninterference`  — what has no influence on the scans and on a fix.
-/

namespace PhpImports

-- ---------------------------------------------------------------------------
-- Positions without trivia
-- ---------------------------------------------------------------------------

/-- Number of tokens before position `i` that are not trivia. -/
def rank (ts : List Token) (i : Nat) : Nat :=
  (meaningful (ts.take i)).length

theorem rank_of_append (us vs : List Token) : rank (us ++ vs) us.length = (meaningful us).length := by
  rw [rank, List.take_left]

theorem meaningful_meaningful (ts : List Token) : meaningful (meaningful ts) = meaningful ts := by
  simp [meaningful]

theorem placedFrom_meaningful (us ts : List Token) :
    placedFrom (meaningful us).length (meaningful ts) =
      (placedFrom us.length ts).map (Placed.move (rank (us ++ ts))) := by
  induction ts generalizing us with
  | nil => rfl
  | cons t ts ih =>
    have hnext := ih (us ++ [t])
    rw [← List.append_cons, List.length_append, List.length_singleton, meaningful_append] at hnext
    rw [placedFrom]
    split
    · next ht =>
      rw [meaningful_cons_of_pos ht, List.length_append] at hnext
      rw [meaningful_cons_of_pos ht, placedFrom, if_pos ht, List.map_cons, ← hnext, Placed.move,
        rank_of_append]
      rfl
    · next ht =>
      rw [meaningful_cons_of_neg ht, List.length_append] at hnext
      rw [meaningful_cons_of_neg ht, ← hnext]
      rfl

/-- Without trivia, tokens stand at their ranks. -/
theorem placed_meaningful (ts : List Token) :
    placed (meaningful ts) = (placed ts).map (Placed.move (rank ts)) :=
  placedFrom_meaningful [] ts

-- ---------------------------------------------------------------------------
-- The scans without trivia
-- ---------------------------------------------------------------------------

theorem sameOutline_meaningful (ts : List Token) : SameOutline ts (meaningful ts) := by
  rw [SameOutline, meaningful_meaningful, List.forall₂_same]
  intro t _
  exact ⟨rfl, fun _ => rfl⟩

theorem SameOutline.missingNames_eq {ts us : List Token} (h : SameOutline ts us) :
    missingNames us = missingNames ts := by
  rw [PhpImports.missingNames_eq, PhpImports.missingNames_eq, h.sameUsages.usedNames_eq,
    h.sameUsages.declaredTypes_eq, h.importedNames_eq]

theorem lastEnd_meaningful (ts : List Token) :
    (importScan (meaningful ts)).lastEnd = (importScan ts).lastEnd.map (rank ts) := by
  rw [importScan, importScan, ImportScan.lastEnd_run, ImportScan.lastEnd_run, placed_meaningful,
    ImportScan.gain_of_alike (.refl {}) (Placed.recasts_move (rank ts)), Option.or_none,
    Option.or_none]
  rfl

theorem namespaceDecl?_meaningful (ts : List Token) :
    namespaceDecl? (meaningful ts) = (namespaceDecl? ts).map (NamespaceDecl.move (rank ts)) := by
  rw [namespaceDecl?, namespaceDecl?, placed_meaningful, firstNamespace?_map_move]

/-- The token behind which imports are put is the same one. -/
theorem importAnchor_move (g : Nat → Nat) (ns : NamespaceDecl) (e : Option Nat) :
    importAnchor (ns.move g) (e.map g) = g (importAnchor ns e) := by
  cases e with
  | none => rfl
  | some e => rfl

-- ---------------------------------------------------------------------------
-- A fix without trivia
-- ---------------------------------------------------------------------------

theorem inserted_fixTokens (part : String) (s : TokenSeq) :
    (fixTokens part s).inserted =
      if (namespaceDecl? s.tokens).isSome then missingNames s.tokens else [] := by
  unfold fixTokens
  cases namespaceDecl? s.tokens with
  | none => rfl
  | some ns =>
    by_cases hmissing : missingNames s.tokens = []
    · simp [hmissing]
    · simp [hmissing]

/-- A unit without its trivia. -/
def TokenSeq.withoutTrivia (s : TokenSeq) : TokenSeq :=
  .ofList (meaningful s.tokens)

theorem inserted_fixTokens_withoutTrivia (part : String) (s : TokenSeq) :
    (fixTokens part s.withoutTrivia).inserted = (fixTokens part s).inserted := by
  rw [inserted_fixTokens, inserted_fixTokens, TokenSeq.withoutTrivia, TokenSeq.tokens_ofList,
    namespaceDecl?_meaningful, Option.isSome_map, (sameOutline_meaningful _).missingNames_eq]

/-- To fix a unit and to take out its trivia may be done in either order. -/
theorem fixTokens_meaningful (part : String) (s : TokenSeq) :
    meaningful (fixTokens part s.withoutTrivia).tokens.tokens =
      meaningful (fixTokens part s).tokens.tokens := by
  have hsame := inserted_fixTokens_withoutTrivia part s
  by_cases hins : (fixTokens part s).inserted = []
  · rw [fixTokens_eq_of_inserted hins, fixTokens_eq_of_inserted (hsame.trans hins)]
    exact meaningful_meaningful s.tokens
  · cases hns : namespaceDecl? s.tokens with
    | none => exact absurd (by rw [inserted_fixTokens, hns]; rfl) hins
    | some ns =>
      -- the anchor, in the unit and in the unit without trivia
      obtain ⟨t, ht, hkind⟩ := getElem?_importAnchor hns
      obtain ⟨pre, post, hcut, hlength⟩ := exists_cut ht
      have hmark := isMeaningful_of_mark hkind
      have hsplit : ∀ us vs, meaningful (us ++ t :: vs) = meaningful us ++ t :: meaningful vs := by
        intro us vs
        rw [meaningful_append, meaningful_cons_of_pos hmark]
      have hns' : namespaceDecl? s.withoutTrivia.tokens =
          some (ns.move (rank s.tokens)) := by
        rw [TokenSeq.withoutTrivia, TokenSeq.tokens_ofList, namespaceDecl?_meaningful, hns]
        rfl
      have hcut' : s.withoutTrivia.tokens = meaningful pre ++ t :: meaningful post := by
        rw [TokenSeq.withoutTrivia, TokenSeq.tokens_ofList, hcut, hsplit]
      have hlength' : (meaningful pre).length = importAnchor (ns.move (rank s.tokens))
          (importScan s.withoutTrivia.tokens).lastEnd := by
        rw [TokenSeq.withoutTrivia, TokenSeq.tokens_ofList, lastEnd_meaningful, importAnchor_move,
          ← hlength, hcut, rank_of_append]
      have hmissing : missingNames s.withoutTrivia.tokens = missingNames s.tokens :=
        (sameOutline_meaningful s.tokens).missingNames_eq
      rw [tokens_fixTokens hns hins hcut hlength,
        tokens_fixTokens hns' (hsame.symm ▸ hins) hcut' hlength', hmissing, hsplit, hsplit,
        meaningful_append, meaningful_append, meaningful_meaningful, meaningful_meaningful]
      rfl

-- ---------------------------------------------------------------------------
-- Two units
-- ---------------------------------------------------------------------------

/-- Units with the same outline and the same texts differ in trivia only. -/
theorem SameOutline.meaningful_eq {ts us : List Token} (h : SameOutline ts us)
    (htexts : (meaningful us).map Token.text = (meaningful ts).map Token.text) :
    meaningful us = meaningful ts := by
  unfold SameOutline at h
  generalize meaningful ts = ts at h htexts ⊢
  generalize meaningful us = us at h htexts ⊢
  induction h with
  | nil => rfl
  | @cons t u ts us htu _ ih =>
    rw [List.map_cons, List.map_cons, List.cons.injEq] at htexts
    have hhead : u = t := by
      rw [Token.mk.injEq]
      exact ⟨htu.1, htexts.1⟩
    rw [hhead, ih htexts.2]

/-- Two outcomes of a fix that differ in trivia only: the same error, or the same imports put in
and the same tokens that are not trivia. -/
def SameOutcome : Except ConfigError Fixed → Except ConfigError Fixed → Prop
  | .error e, .error e' => e' = e
  | .ok r, .ok r' =>
    r'.inserted = r.inserted ∧ meaningful r'.tokens.tokens = meaningful r.tokens.tokens
  | _, _ => False

theorem Fixer.sameOutcome_fix (f : Fixer) {s s' : TokenSeq}
    (h : meaningful s'.tokens = meaningful s.tokens) : SameOutcome (f.fix s) (f.fix s') := by
  have hunit : s'.withoutTrivia = s.withoutTrivia := by
    rw [TokenSeq.withoutTrivia, TokenSeq.withoutTrivia, h]
  rw [Fixer.fix_eq, Fixer.fix_eq]
  cases f.config.requirePrefix with
  | error e => exact rfl
  | ok part =>
    refine ⟨?_, ?_⟩
    · rw [← inserted_fixTokens_withoutTrivia, hunit, inserted_fixTokens_withoutTrivia]
    · rw [← fixTokens_meaningful, hunit, fixTokens_meaningful]

/-- Trivia and the texts of tokens that are no identifiers have no influence on what a unit uses,
imports and declares. Units that differ in trivia only have the same outcome of a fix. -/
theorem Fixer.fix_noninterference {s s' : TokenSeq} (h : SameOutline s.tokens s'.tokens) :
    SameUsages s.tokens s'.tokens ∧ usedNames s'.tokens = usedNames s.tokens ∧
      importedNames s'.tokens = importedNames s.tokens ∧
      ((meaningful s'.tokens).map Token.text = (meaningful s.tokens).map Token.text →
        ∀ f : Fixer, SameOutcome (f.fix s) (f.fix s')) := by
  refine ⟨h.sameUsages, h.sameUsages.usedNames_eq, h.importedNames_eq, ?_⟩
  intro htexts f
  exact f.sameOutcome_fix (h.meaningful_eq htexts)

/-- A unit that catches a class of its own namespace; `text` is the text of its variable. -/
def catchingUnit (text : String) : TokenSeq :=
  .ofList [⟨.openTag, "<?php "⟩, ⟨.keyword .namespaceKw, "namespace"⟩, ⟨.identifier, "A"⟩,
    ⟨.semicolon, ";"⟩, ⟨.keyword .catchKw, "catch"⟩, ⟨.lParen, "("⟩, ⟨.identifier, "E"⟩,
    ⟨.variable, text⟩, ⟨.rParen, ")"⟩]

/-- The same unit, with trivia between the tokens that are looked at together. -/
def commentedUnit : TokenSeq :=
  .ofList [⟨.openTag, "<?php "⟩, ⟨.keyword .namespaceKw, "namespace"⟩, ⟨.whitespace, " "⟩,
    ⟨.identifier, "A"⟩, ⟨.blockComment, "/* ; */"⟩, ⟨.semicolon, ";"⟩, ⟨.keyword .catchKw, "catch"⟩,
    ⟨.docComment, "/** ( */"⟩, ⟨.lParen, "("⟩, ⟨.lineComment, "// )"⟩, ⟨.whitespace, "\n"⟩,
    ⟨.identifier, "E"⟩, ⟨.blockComment, "/**/"⟩, ⟨.variable, "$e"⟩, ⟨.rParen, ")"⟩,
    ⟨.whitespace, "\n"⟩]

theorem Fixer.fix_noninterference_commentedUnit :
    SameOutline (catchingUnit "$e").tokens (catchingUnit "$f").tokens ∧
      caughtTypes (catchingUnit "$f").tokens = ["E"] ∧
      SameOutline (catchingUnit "$e").tokens commentedUnit.tokens ∧
      ∃ r r', Fixer.fix { config := ⟨some "P"⟩ } (catchingUnit "$e") = .ok r ∧
        Fixer.fix { config := ⟨some "P"⟩ } commentedUnit = .ok r' ∧ r.inserted = ["E"] ∧
        r'.inserted = r.inserted ∧ meaningful r'.tokens.tokens = meaningful r.tokens.tokens := by
  have htexts : SameOutline (catchingUnit "$e").tokens (catchingUnit "$f").tokens := by decide
  have htrivia : SameOutline (catchingUnit "$e").tokens commentedUnit.tokens := by decide
  have hcaught : caughtTypes (catchingUnit "$e").tokens = ["E"] := by decide
  have hins : (fixTokens "P" (catchingUnit "$e")).inserted = ["E"] := by decide
  have houtcome := (Fixer.fix_noninterference htrivia).2.2.2 (by decide) { config := ⟨some "P"⟩ }
  rw [Fixer.fix_eq_ok rfl (by decide), Fixer.fix_eq_ok rfl (by decide)] at houtcome
  refine ⟨htexts, ?_, htrivia, _, _, Fixer.fix_eq_ok rfl (by decide) _,
    Fixer.fix_eq_ok rfl (by decide) _, hins, houtcome.1, houtcome.2⟩
  rw [(Fixer.fix_noninterference htexts).1.caughtTypes_eq, hcaught]

end PhpImports
