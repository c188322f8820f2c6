import PhpImports.Proofs.Names.Inert
import PhpImports.Proofs.Names.Used
import PhpImports.Proofs.Token.Navigation

/-!
# PhpImports — what the scans for usages find

Each scan for usages is a recursion over the tokens without trivia. Here each is
described by the cuts of these tokens at which it finds a name: an identifier between its
neighbours, a `catch` before its clause, a `function` before its signature.

## Results

* `mem_namesWhere_iff` — the names in a context, by the neighbours of identifiers.
* `mem_caughtTypesFrom_iff` — no catch clause is lost, though clauses are passed over.
* `mem_signatureTypesFrom_iff`, `mem_typesOfSignature_iff`, `resultType?_eq_some_iff` — the
  types in signatures.
-/

namespace PhpImports

-- ---------------------------------------------------------------------------
-- Names in a context
-- ---------------------------------------------------------------------------

/-- Kind of the last of the tokens. -/
def lastKind? (ts : List Token) : Option Kind :=
  ts.getLast?.map Token.kind

/-- Kind of the first of the tokens. -/
def firstKind? (ts : List Token) : Option Kind :=
  ts.head?.map Token.kind

theorem lastKind?_append_cons (ts us : List Token) (t : Token) :
    lastKind? (ts ++ t :: us) = (lastKind? us).or (some t.kind) := by
  rw [lastKind?, lastKind?, List.getLast?_append, List.getLast?_cons]
  cases us.getLast? <;> rfl

theorem firstKind?_append_cons (ts us : List Token) (t : Token) :
    firstKind? (ts ++ t :: us) = (firstKind? ts).or (some t.kind) := by
  cases ts <;> rfl

theorem mem_mentionsAfter_iff {before : Option Kind} {ts : List Token} {m : Mention} :
    m ∈ mentionsAfter before ts ↔
      ∃ pre t post, ts = pre ++ t :: post ∧ t.kind = .identifier ∧
        m = ⟨(lastKind? pre).or before, t.text, firstKind? post⟩ := by
  induction ts generalizing before with
  | nil => simp [mentionsAfter]
  | cons u ts ih =>
    have hlater : m ∈ mentionsAfter (some u.kind) ts ↔
        ∃ pre t post, ts = pre ++ t :: post ∧ t.kind = .identifier ∧
          m = ⟨(lastKind? (u :: pre)).or before, t.text, firstKind? post⟩ := by
      rw [ih]
      have hlast : ∀ pre, (lastKind? (u :: pre)).or before = (lastKind? pre).or (some u.kind) := by
        intro pre
        rw [← List.nil_append (u :: pre), lastKind?_append_cons]
        cases lastKind? pre <;> rfl
      simp only [hlast]
    constructor
    · intro h
      rw [mentionsAfter] at h
      split at h
      · next hu =>
        rcases List.mem_cons.1 h with rfl | h
        · exact ⟨[], u, ts, rfl, hu, rfl⟩
        · obtain ⟨pre, t, post, rfl, ht, rfl⟩ := hlater.1 h
          exact ⟨u :: pre, t, post, rfl, ht, rfl⟩
      · obtain ⟨pre, t, post, rfl, ht, rfl⟩ := hlater.1 h
        exact ⟨u :: pre, t, post, rfl, ht, rfl⟩
    · rintro ⟨pre, t, post, heq, ht, rfl⟩
      rw [mentionsAfter]
      cases pre with
      | nil =>
        cases heq
        rw [if_pos ht]
        exact List.mem_cons_self
      | cons v pre =>
        cases heq
        have hmem := hlater.2 ⟨pre, t, post, rfl, ht, rfl⟩
        split
        · exact List.mem_cons_of_mem _ hmem
        · exact hmem

/-- A name is found in a context where an identifier with this text has neighbours that make
up the context. -/
theorem mem_namesWhere_iff {context : Mention → Bool} {ts : List Token} {n : String} :
    n ∈ namesWhere context ts ↔
      isReserved n = false ∧ ∃ pre post, ts = pre ++ ⟨.identifier, n⟩ :: post ∧
        context ⟨lastKind? pre, n, firstKind? post⟩ = true := by
  simp only [namesWhere, mentions, List.mem_map, List.mem_filter, Bool.and_eq_true,
    Bool.not_eq_true', mem_mentionsAfter_iff, Option.or_none]
  constructor
  · rintro ⟨m, ⟨⟨pre, t, post, rfl, ht, rfl⟩, hctx, hreserved⟩, rfl⟩
    refine ⟨hreserved, pre, post, ?_, hctx⟩
    rw [← ht]
  · rintro ⟨hreserved, pre, post, rfl, hctx⟩
    exact ⟨_, ⟨⟨pre, _, post, rfl, rfl, rfl⟩, hctx, hreserved⟩, rfl⟩

namespace Mention

variable {m : Mention}

theorem isInstantiated_iff :
    m.isInstantiated = true ↔
      m.before = some (.keyword .newKw) ∧ (m.after = some .lParen ∨ m.after = some .semicolon) := by
  simp [isInstantiated]

theorem isAccessed_iff :
    m.isAccessed = true ↔ m.after = some .doubleColon ∧ m.before ≠ some .nsSeparator := by
  simp [isAccessed, isQualified]

theorem isCaught_iff :
    m.isCaught = true ↔
      (m.after = some .variable ∨ m.after = some .pipe) ∧ m.before ≠ some .nsSeparator := by
  simp [isCaught, isQualified]

theorem isHint_iff :
    m.isHint = true ↔ m.after = some .variable ∧ m.before ≠ some .nsSeparator := by
  simp [isHint, isQualified]

end Mention

/-- A context that does not tell a parenthesis from the end of the tokens. -/
structure IsInnerContext (context : Mention → Bool) : Prop where
  opened : ∀ n after, context ⟨some .lParen, n, after⟩ = context ⟨none, n, after⟩
  closed : ∀ before n, context ⟨before, n, some .rParen⟩ = context ⟨before, n, none⟩

theorem isInnerContext_isCaught : IsInnerContext Mention.isCaught :=
  ⟨fun _ _ => rfl, fun _ _ => rfl⟩

theorem isInnerContext_isHint : IsInnerContext Mention.isHint :=
  ⟨fun _ _ => rfl, fun _ _ => rfl⟩

/-- Between parentheses a name is in the same context as among all tokens. -/
theorem IsInnerContext.enclosed {context : Mention → Bool} (h : IsInnerContext context)
    {t u : Token} (ht : t.kind = .lParen) (hu : u.kind = .rParen)
    (before pre post after : List Token) (n : String) :
    context ⟨lastKind? (before ++ t :: pre), n, firstKind? (post ++ u :: after)⟩ =
      context ⟨lastKind? pre, n, firstKind? post⟩ := by
  have hlast : ∀ after, context ⟨lastKind? (before ++ t :: pre), n, after⟩ =
      context ⟨lastKind? pre, n, after⟩ := by
    intro after
    rw [lastKind?_append_cons, ht]
    cases lastKind? pre with
    | none => exact h.opened n after
    | some k => rfl
  rw [hlast, firstKind?_append_cons, hu]
  cases firstKind? post with
  | none => exact h.closed _ n
  | some k => rfl

-- ---------------------------------------------------------------------------
-- Catch clauses
-- ---------------------------------------------------------------------------

/-- A cut of tokens is at the first one or at a later one. -/
theorem exists_cut_cons_iff {P : Token → List Token → Prop} {u : Token} {ts : List Token} :
    (∃ pre t post, u :: ts = pre ++ t :: post ∧ P t post) ↔
      P u ts ∨ ∃ pre t post, ts = pre ++ t :: post ∧ P t post := by
  constructor
  · rintro ⟨pre, t, post, heq, hP⟩
    cases pre with
    | nil =>
      cases heq
      exact .inl hP
    | cons v pre =>
      cases heq
      exact .inr ⟨pre, t, post, rfl, hP⟩
  · rintro (hP | ⟨pre, t, post, rfl, hP⟩)
    · exact ⟨[], u, ts, rfl, hP⟩
    · exact ⟨u :: pre, t, post, rfl, hP⟩

/-- Some catch clause among tokens without trivia catches a name. -/
def Catches (ts : List Token) (n : String) : Prop :=
  ∃ pre t post, ts = pre ++ t :: post ∧ t.kind = .keyword .catchKw ∧ ∃ clause rest,
    leadingBlock? .parenthesis post = some (clause, rest) ∧ n ∈ namesWhere Mention.isCaught clause

theorem catches_cons_iff {t : Token} {ts : List Token} {n : String} :
    Catches (t :: ts) n ↔
      (t.kind = .keyword .catchKw ∧ ∃ clause rest,
        leadingBlock? .parenthesis ts = some (clause, rest) ∧
          n ∈ namesWhere Mention.isCaught clause) ∨ Catches ts n :=
  exists_cut_cons_iff

theorem Catches.append_left {ts : List Token} {n : String} (h : Catches ts n) (us : List Token) :
    Catches (us ++ ts) n := by
  obtain ⟨pre, t, post, rfl, hclause⟩ := h
  exact ⟨us ++ pre, t, post, (List.append_assoc ..).symm, hclause⟩

/-- Names between the parentheses inside a block are names of the block. -/
theorem mem_namesWhere_of_inner {context : Mention → Bool} (hctx : IsInnerContext context)
    {before inner after : List Token} {t u : Token} (ht : t.kind = .lParen) (hu : u.kind = .rParen)
    {n : String} (h : n ∈ namesWhere context inner) :
    n ∈ namesWhere context (before ++ t :: inner ++ u :: after) := by
  obtain ⟨hreserved, pre, post, rfl, hmention⟩ := mem_namesWhere_iff.1 h
  refine mem_namesWhere_iff.2 ⟨hreserved, before ++ t :: pre, post ++ u :: after, by simp, ?_⟩
  rw [hctx.enclosed ht hu, hmention]

/-- A catch clause that begins inside parentheses lies inside them as a whole, so what it
catches is found between them. -/
theorem Catches.of_leadingBlock? {ts body rest : List Token} {n : String} (h : Catches ts n)
    (hblock : leadingBlock? .parenthesis ts = some (body, rest)) :
    n ∈ namesWhere Mention.isCaught body ∨ Catches rest n := by
  obtain ⟨pre, t, post, rfl, ht, clause, tail, hclause, hn⟩ := h
  have hplain : t.kind ≠ Bracket.parenthesis.opener ∧ t.kind ≠ Bracket.parenthesis.closer := by
    rw [ht]
    exact ⟨nofun, nofun⟩
  rcases leadingBlock?_nested hblock hplain hclause with ⟨before, o, c, after, ho, hc, rfl⟩ | hrest
  · exact .inl (mem_namesWhere_of_inner isInnerContext_isCaught ho hc hn)
  · obtain ⟨gap, rfl⟩ := hrest
    exact .inr ⟨gap, t, post, rfl, ht, clause, tail, hclause, hn⟩

/-- Clauses are passed over as a whole, and yet none is lost. -/
theorem mem_caughtTypesFrom_iff {ts : List Token} {n : String} :
    n ∈ caughtTypesFrom 0 ts ↔ Catches ts n := by
  generalize hlen : ts.length = len
  induction len using Nat.strongRecOn generalizing ts with
  | ind len ih =>
    cases ts with
    | nil => simp [caughtTypesFrom, Catches]
    | cons t ts =>
      rw [List.length_cons] at hlen
      have htail : n ∈ caughtTypesFrom 0 ts ↔ Catches ts n := ih ts.length (by omega) rfl
      cases hblock :
          (if t.kind = .keyword .catchKw then leadingBlock? .parenthesis ts else none) with
      | none =>
        rw [caughtTypesFrom_cons, hblock, htail, catches_cons_iff]
        refine ⟨.inr, ?_⟩
        rintro (⟨ht, clause, rest, hclause, -⟩ | hcatches)
        · rw [if_pos ht, hclause] at hblock
          exact absurd hblock (by simp)
        · exact hcatches
      | some p =>
        obtain ⟨clause, rest⟩ := p
        obtain ⟨ht, hclause⟩ : t.kind = .keyword .catchKw ∧
            leadingBlock? .parenthesis ts = some (clause, rest) := by
          split at hblock
          · next ht => exact ⟨ht, hblock⟩
          · simp at hblock
        obtain ⟨o, c, us, -, -, rfl, rfl, -⟩ := exists_of_leadingBlock? hclause
        simp only [List.length_cons, List.length_append] at hlen
        rw [caughtTypesFrom_cons, hblock, List.mem_append, ih rest.length (by omega) rfl,
          catches_cons_iff]
        constructor
        · rintro (hn | hrest)
          · exact .inl ⟨ht, clause, rest, hclause, hn⟩
          · have hlater := hrest.append_left (o :: clause ++ [c])
            rw [List.append_assoc] at hlater
            exact .inr hlater
        · rintro (⟨-, clause', rest', hclause', hn⟩ | hcatches)
          · rw [hclause] at hclause'
            cases hclause'
            exact .inl hn
          · exact hcatches.of_leadingBlock? hclause

-- ---------------------------------------------------------------------------
-- Signatures
-- ---------------------------------------------------------------------------

theorem mem_signatureTypesFrom_iff {ts : List Token} {n : String} :
    n ∈ signatureTypesFrom ts ↔
      ∃ pre t post, ts = pre ++ t :: post ∧ t.kind = .keyword .functionKw ∧
        n ∈ typesOfSignature post := by
  induction ts with
  | nil => simp [signatureTypesFrom]
  | cons t ts ih =>
    rw [exists_cut_cons_iff, ← ih, signatureTypesFrom]
    split
    · next ht => simp [ht]
    · next ht => simp [ht]

theorem mem_typesOfSignature_iff {ts : List Token} {n : String} :
    n ∈ typesOfSignature ts ↔
      ∃ params rest, parameters? ts = some (params, rest) ∧
        (n ∈ namesWhere Mention.isHint params ∨ resultType? rest = some n) := by
  rw [typesOfSignature]
  cases parameters? ts with
  | none => simp
  | some p =>
    simp only [List.mem_append, Option.mem_toList, Option.some.injEq]
    constructor
    · intro h
      exact ⟨p.1, p.2, rfl, h⟩
    · rintro ⟨params, rest, rfl, h⟩
      exact h

theorem resultType?_eq_some_iff {ts : List Token} {n : String} :
    resultType? ts = some n ↔
      isReserved n = false ∧ ∃ colon stop rest, ts = colon :: ⟨.identifier, n⟩ :: stop :: rest ∧
        colon.kind = .colon ∧ (stop.kind = .lBrace ∨ stop.kind = .semicolon) := by
  constructor
  · intro h
    unfold resultType? at h
    split at h
    · next colon type stop rest =>
      split at h
      · next hcond =>
        cases h
        simp only [Bool.and_eq_true, Bool.or_eq_true, Bool.not_eq_true', decide_eq_true_eq] at hcond
        obtain ⟨⟨⟨hcolon, htype⟩, hstop⟩, hreserved⟩ := hcond
        refine ⟨hreserved, colon, stop, rest, ?_, hcolon, hstop⟩
        rw [← htype]
      · simp at h
    · simp at h
  · rintro ⟨hreserved, colon, stop, rest, rfl, hcolon, hstop⟩
    simp [resultType?, hcolon, hstop, hreserved]

end PhpImports
