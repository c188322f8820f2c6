import Mathlib.Data.List.Forall2
import PhpImports.Proofs.Names.ImportRun
import PhpImports.Proofs.Names.Used

/-!
# PhpImports — what the scans see of a unit

Of a token that is not trivia a scan for names sees the kind, and the text if it is an
identifier. The outline of a token is what is left when all other texts are taken away.
Every scan commutes with taking outlines, so units with the same outline use, import and
declare the same names, whatever their comments, strings and numbers say.

## Results

* `Token.outline`, `SameOutline` — the notions used.
* `closeBlock_map_outline`       — blocks in brackets of an outline.
* `SameOutline.sameUsages`       — usages and declarations.
* `SameOutline.importedNames_eq` — imports.
-/

namespace PhpImports

/-- A token without its text, unless it is an identifier. -/
def Token.outline (t : Token) : Token :=
  if t.kind = .identifier then t else ⟨t.kind, ""⟩

@[simp] theorem Token.kind_outline (t : Token) : t.outline.kind = t.kind := by
  unfold outline
  split
  · rfl
  · rfl

theorem Token.text_outline {t : Token} (h : t.kind = .identifier) : t.outline.text = t.text := by
  rw [outline, if_pos h]

/-- The units differ in trivia only, and in the texts of tokens that are no identifiers. -/
def SameOutline (ts us : List Token) : Prop :=
  List.Forall₂ (fun t u => u.kind = t.kind ∧ (t.kind = .identifier → u.text = t.text))
    (meaningful ts) (meaningful us)

instance (ts us : List Token) : Decidable (SameOutline ts us) :=
  inferInstanceAs (Decidable (List.Forall₂
    (fun t u : Token => u.kind = t.kind ∧ (t.kind = .identifier → u.text = t.text)) _ _))

theorem Token.outline_eq {t u : Token} (hkind : u.kind = t.kind)
    (htext : t.kind = .identifier → u.text = t.text) : u.outline = t.outline := by
  unfold outline
  rw [hkind]
  split
  · next ht =>
    rw [Token.mk.injEq]
    exact ⟨hkind, htext ht⟩
  · rfl

theorem SameOutline.map_outline {ts us : List Token} (h : SameOutline ts us) :
    (meaningful us).map Token.outline = (meaningful ts).map Token.outline := by
  unfold SameOutline at h
  generalize meaningful ts = ts at h ⊢
  generalize meaningful us = us at h ⊢
  induction h with
  | nil => rfl
  | cons htu _ ih => rw [List.map_cons, List.map_cons, Token.outline_eq htu.1 htu.2, ih]

-- ---------------------------------------------------------------------------
-- Mentions
-- ---------------------------------------------------------------------------

theorem head?_map_outline (ts : List Token) :
    (ts.map Token.outline).head?.map Token.kind = ts.head?.map Token.kind := by
  cases ts with
  | nil => rfl
  | cons t ts => simp

theorem mentionsAfter_map_outline (before : Option Kind) (ts : List Token) :
    mentionsAfter before (ts.map Token.outline) = mentionsAfter before ts := by
  induction ts generalizing before with
  | nil => rfl
  | cons t ts ih =>
    rw [List.map_cons, mentionsAfter, mentionsAfter, Token.kind_outline, head?_map_outline, ih]
    split
    · next ht => rw [Token.text_outline ht]
    · rfl

theorem namesWhere_map_outline (context : Mention → Bool) (ts : List Token) :
    namesWhere context (ts.map Token.outline) = namesWhere context ts := by
  rw [namesWhere, namesWhere, mentions, mentions, mentionsAfter_map_outline]

-- ---------------------------------------------------------------------------
-- Brackets
-- ---------------------------------------------------------------------------

/-- The outlines of two lists of tokens. -/
abbrev outlines : List Token × List Token → List Token × List Token :=
  Prod.map (List.map Token.outline) (List.map Token.outline)

theorem closeBlock_map_outline (b : Bracket) (depth : Nat) (ts : List Token) :
    closeBlock b depth (ts.map Token.outline) = (closeBlock b depth ts).map outlines := by
  induction ts generalizing depth with
  | nil => rfl
  | cons t ts ih =>
    -- the token goes into the body, with its outline
    have hstep : ∀ d, (closeBlock b d (ts.map Token.outline)).map
          (fun p => (t.outline :: p.1, p.2)) =
        ((closeBlock b d ts).map fun p => (t :: p.1, p.2)).map outlines := by
      intro d
      rw [ih, Option.map_map, Option.map_map]
      rfl
    rw [List.map_cons]
    by_cases hopen : t.kind = b.opener
    · have hopen' : t.outline.kind = b.opener := by rw [Token.kind_outline, hopen]
      rw [closeBlock_of_opener _ _ hopen, closeBlock_of_opener _ _ hopen']
      exact hstep (depth + 1)
    · by_cases hclose : t.kind = b.closer
      · have hclose' : t.outline.kind = b.closer := by rw [Token.kind_outline, hclose]
        cases depth with
        | zero =>
          rw [closeBlock_zero_of_closer _ hclose, closeBlock_zero_of_closer _ hclose']
          rfl
        | succ d =>
          rw [closeBlock_succ_of_closer _ _ hclose, closeBlock_succ_of_closer _ _ hclose']
          exact hstep d
      · have hopen' : t.outline.kind ≠ b.opener := by rwa [Token.kind_outline]
        have hclose' : t.outline.kind ≠ b.closer := by rwa [Token.kind_outline]
        rw [closeBlock_of_other _ _ hopen hclose, closeBlock_of_other _ _ hopen' hclose']
        exact hstep depth

theorem leadingBlock?_map_outline (b : Bracket) (ts : List Token) :
    leadingBlock? b (ts.map Token.outline) = (leadingBlock? b ts).map outlines := by
  cases ts with
  | nil => rfl
  | cons t ts =>
    rw [List.map_cons, leadingBlock?, leadingBlock?, Token.kind_outline, closeBlock_map_outline]
    split
    · rfl
    · rfl

-- ---------------------------------------------------------------------------
-- Catch clauses and signatures
-- ---------------------------------------------------------------------------

theorem caughtTypesFrom_map_outline (skip : Nat) (ts : List Token) :
    caughtTypesFrom skip (ts.map Token.outline) = caughtTypesFrom skip ts := by
  induction ts generalizing skip with
  | nil => rfl
  | cons t ts ih =>
    cases skip with
    | succ k => exact ih k
    | zero =>
      rw [List.map_cons, caughtTypesFrom, caughtTypesFrom, Token.kind_outline,
        leadingBlock?_map_outline]
      by_cases hcatch : t.kind = .keyword .catchKw
      · rw [if_pos hcatch, if_pos hcatch]
        cases leadingBlock? .parenthesis ts with
        | none => exact ih 0
        | some p =>
          simp only [Option.map_some, Prod.map_fst, namesWhere_map_outline, List.length_map, ih]
      · rw [if_neg hcatch, if_neg hcatch]
        exact ih 0

theorem dropKind_map_outline (k : Kind) (ts : List Token) :
    dropKind k (ts.map Token.outline) = (dropKind k ts).map Token.outline := by
  cases ts with
  | nil => rfl
  | cons t ts =>
    rw [List.map_cons, dropKind, dropKind, Token.kind_outline]
    split
    · rfl
    · rfl

theorem parameters?_map_outline (ts : List Token) :
    parameters? (ts.map Token.outline) = (parameters? ts).map outlines := by
  rw [parameters?, parameters?, dropKind_map_outline, dropKind_map_outline,
    leadingBlock?_map_outline]

theorem resultType?_map_outline (ts : List Token) :
    resultType? (ts.map Token.outline) = resultType? ts := by
  match ts with
  | [] | [_] | [_, _] => rfl
  | colon :: type :: stop :: ts =>
    simp only [List.map_cons, resultType?, Token.kind_outline]
    by_cases htype : type.kind = .identifier
    · rw [Token.text_outline htype]
    · simp [htype]

theorem typesOfSignature_map_outline (ts : List Token) :
    typesOfSignature (ts.map Token.outline) = typesOfSignature ts := by
  rw [typesOfSignature, typesOfSignature, parameters?_map_outline]
  cases parameters? ts with
  | none => rfl
  | some p =>
    simp only [Option.map_some, Prod.map_fst, Prod.map_snd, namesWhere_map_outline,
      resultType?_map_outline]

theorem signatureTypesFrom_map_outline (ts : List Token) :
    signatureTypesFrom (ts.map Token.outline) = signatureTypesFrom ts := by
  induction ts with
  | nil => rfl
  | cons t ts ih =>
    rw [List.map_cons, signatureTypesFrom, signatureTypesFrom, Token.kind_outline,
      typesOfSignature_map_outline, ih]

-- ---------------------------------------------------------------------------
-- Declared types
-- ---------------------------------------------------------------------------

theorem bodyEnd_map_outline (ts : List Token) :
    bodyEnd (ts.map Token.outline) = bodyEnd ts := by
  have hsame : ((fun t : Token => decide (t.kind ≠ .lBrace)) ∘ Token.outline) =
      fun t : Token => decide (t.kind ≠ .lBrace) := by
    funext t
    rw [Function.comp_apply, Token.kind_outline]
  rw [bodyEnd, bodyEnd, List.dropWhile_map, List.takeWhile_map, List.length_map, hsame,
    leadingBlock?_map_outline]
  cases leadingBlock? .curly (ts.dropWhile (·.kind ≠ .lBrace)) with
  | none => rfl
  | some p => simp only [Option.map_some, Prod.map_fst, List.length_map]

theorem declaredName?_map_outline (ts : List Token) :
    declaredName? (ts.map Token.outline) =
      (declaredName? ts).map fun (name, rest) => (name, rest.map Token.outline) := by
  cases ts with
  | nil => rfl
  | cons t ts =>
    rw [List.map_cons, declaredName?, declaredName?, Token.kind_outline]
    split
    · next ht => rw [Token.text_outline ht]; rfl
    · rfl

theorem declaredTypesFrom_map_outline (skip : Nat) (ts : List Token) :
    declaredTypesFrom skip (ts.map Token.outline) = declaredTypesFrom skip ts := by
  induction ts generalizing skip with
  | nil => rfl
  | cons t ts ih =>
    cases skip with
    | succ k => exact ih k
    | zero =>
      rw [List.map_cons, declaredTypesFrom, declaredTypesFrom, Token.kind_outline,
        declaredName?_map_outline]
      by_cases hdecl : t.kind.isTypeDeclaration = true
      · rw [if_pos hdecl, if_pos hdecl]
        cases declaredName? ts with
        | none => exact ih 0
        | some p => simp only [Option.map_some, bodyEnd_map_outline, ih]
      · rw [if_neg hdecl, if_neg hdecl]
        exact ih 0

/-- Units with the same outline use and declare the same. -/
theorem SameOutline.sameUsages {ts us : List Token} (h : SameOutline ts us) :
    SameUsages ts us where
  instantiations_eq := by
    rw [instantiations, ← namesWhere_map_outline, h.map_outline, namesWhere_map_outline]
    rfl
  staticAccesses_eq := by
    rw [staticAccesses, ← namesWhere_map_outline, h.map_outline, namesWhere_map_outline]
    rfl
  caughtTypes_eq := by
    rw [caughtTypes, ← caughtTypesFrom_map_outline, h.map_outline, caughtTypesFrom_map_outline]
    rfl
  signatureTypes_eq := by
    rw [signatureTypes, ← signatureTypesFrom_map_outline, h.map_outline,
      signatureTypesFrom_map_outline]
    rfl
  declaredTypes_eq := by
    rw [declaredTypes, ← declaredTypesFrom_map_outline, h.map_outline,
      declaredTypesFrom_map_outline]
    rfl

-- ---------------------------------------------------------------------------
-- Imports
-- ---------------------------------------------------------------------------

/-- The outline of a token, with its position forgotten. -/
def Placed.outline (p : Placed) : Placed :=
  ⟨p.toToken.outline, 0⟩

theorem Placed.recasts_outline : Placed.Recasts (fun _ => 0) Placed.outline where
  kind_eq p := Token.kind_outline p.toToken
  text_eq _ hp := Token.text_outline hp
  index_eq _ := rfl

theorem map_outline_placed (ts : List Token) :
    (placed ts).map Placed.outline =
      ((meaningful ts).map Token.outline).map fun t => (⟨t, 0⟩ : Placed) := by
  rw [placed, ← map_toToken_placedFrom 0 ts, List.map_map, List.map_map]
  rfl

theorem importedNames_eq_gain (ts : List Token) :
    importedNames ts = (ImportScan.gain {} ((placed ts).map Placed.outline)).names := by
  rw [ImportScan.gain_of_alike (.refl {}) Placed.recasts_outline, importedNames, importScan,
    ImportScan.names_run]
  rfl

/-- Units with the same outline import the same. -/
theorem SameOutline.importedNames_eq {ts us : List Token} (h : SameOutline ts us) :
    importedNames us = importedNames ts := by
  rw [importedNames_eq_gain, importedNames_eq_gain, map_outline_placed, map_outline_placed,
    h.map_outline]

end PhpImports
