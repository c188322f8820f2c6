import PhpImports.Proofs.Names.Occurrence
import PhpImports.Proofs.Token.Block

/-!
# PhpImports — where a name is used

The used names are gathered by four scans of different shape. Here they are described by
the positions of the sequence at which a name counts as used, whatever its brackets and
its trivia are like: a name is used if it stands at one of these positions, and only then.

## Results

* `TokenSeq.mem_caughtTypes_iff`, `TokenSeq.mem_signatureTypes_iff` — the scans by position.
* `TokenSeq.UsedAt` — the positions at which a name is used.
* `usedNames_eq_usedAt` — the used names are those at these positions.
-/

namespace PhpImports

namespace TokenSeq

variable {s : TokenSeq}

/-- The position behind the token at `i` if that is of kind `k`, and `i` otherwise. -/
def skipKind? (s : TokenSeq) (k : Kind) (i : Nat) : Option Nat :=
  if s.kindAt? i = some k then s.nextMeaningful? i else some i

/-- The position at which the parameter list after the `function` at `i` opens: behind an
ampersand and a name, which may both be missing. -/
def parametersOpen? (s : TokenSeq) (i : Nat) : Option Nat :=
  ((s.nextMeaningful? i).bind (s.skipKind? .ampersand)).bind (s.skipKind? .identifier)

/-- The tokens without trivia from a position on; there are none from no position. -/
def meaningfulFrom (s : TokenSeq) (i : Option Nat) : List Token :=
  i.elim [] fun i => meaningful (s.tokens.drop i)

/-- A position, if there is one, is that of a token that is not trivia. -/
def IsMeaningfulAt (s : TokenSeq) (i : Option Nat) : Prop :=
  ∀ j ∈ i, s.tokens[j]?.any Token.isMeaningful = true

theorem isMeaningfulAt_nextMeaningful? (s : TokenSeq) (i : Nat) :
    s.IsMeaningfulAt (s.nextMeaningful? i) :=
  fun _ hj => (next?_eq_some_iff.1 hj).2.1

theorem meaningfulFrom_nextMeaningful? (s : TokenSeq) (i : Nat) :
    s.meaningfulFrom (s.nextMeaningful? i) = meaningful (s.tokens.drop (i + 1)) := by
  cases h : s.nextMeaningful? i with
  | none => exact (meaningful_drop_of_nextMeaningful?_none h).symm
  | some j => exact (meaningful_drop_of_nextMeaningful? h).symm

/-- To leave out a token of a kind is to skip it. -/
theorem dropKind_meaningfulFrom {i : Option Nat} (hi : s.IsMeaningfulAt i) (k : Kind) :
    s.IsMeaningfulAt (i.bind (s.skipKind? k)) ∧
      dropKind k (s.meaningfulFrom i) = s.meaningfulFrom (i.bind (s.skipKind? k)) := by
  cases i with
  | none => exact ⟨nofun, rfl⟩
  | some i =>
    obtain ⟨t, hget, ht⟩ := (Option.any_eq_true _ _).1 (hi i rfl)
    have htokens : s.meaningfulFrom (some i) = t :: meaningful (s.tokens.drop (i + 1)) :=
      meaningful_drop_of_getElem? hget ht
    have hkind : s.kindAt? i = some t.kind := by rw [kindAt?, hget]; rfl
    simp only [htokens, dropKind, Option.bind_some, skipKind?, hkind, Option.some.injEq]
    split
    · exact ⟨isMeaningfulAt_nextMeaningful? s i, (meaningfulFrom_nextMeaningful? s i).symm⟩
    · exact ⟨hi, htokens.symm⟩

-- ---------------------------------------------------------------------------
-- Blocks seen without trivia
-- ---------------------------------------------------------------------------

/-- A block seen without trivia is a block of the sequence. -/
theorem leadingBlock?_meaningfulFrom_iff {b : Bracket} {i : Option Nat} (hi : s.IsMeaningfulAt i)
    {body rest : List Token} :
    leadingBlock? b (s.meaningfulFrom i) = some (body, rest) ↔
      ∃ o c, i = some o ∧ s.blockEnd? b o = some c ∧ body = meaningful (s.between o c) ∧
        rest = meaningful (s.tokens.drop (c + 1)) := by
  cases i with
  | none => simp [meaningfulFrom, leadingBlock?]
  | some o =>
    have hhead : ∀ t ∈ (s.tokens.drop o).head?, t.isMeaningful = true := by
      intro t ht
      rw [List.head?_drop] at ht
      have hmeaningful := hi o rfl
      rwa [Option.mem_def.1 ht, Option.any_some] at hmeaningful
    have hblock : leadingBlock? b (s.meaningfulFrom (some o)) =
        (leadingBlock? b (s.tokens.drop o)).map (Prod.map meaningful meaningful) :=
      leadingBlock?_meaningful hhead
    rw [hblock, Option.map_eq_some_iff]
    constructor
    · rintro ⟨⟨raw, tail⟩, hraw, heq⟩
      cases heq
      obtain ⟨c, hc, rfl, rfl⟩ := leadingBlock?_drop_iff.1 hraw
      exact ⟨o, c, rfl, hc, rfl, rfl⟩
    · rintro ⟨o', c, ho, hc, rfl, rfl⟩
      cases ho
      exact ⟨_, leadingBlock?_drop_iff.2 ⟨c, hc, rfl, rfl⟩, rfl⟩

-- ---------------------------------------------------------------------------
-- Names in their places
-- ---------------------------------------------------------------------------

theorem neighbours_of_cut {pre post : List Token} {t : Token} (h : s.tokens = pre ++ t :: post) :
    s.kindBefore? pre.length = lastKind? (meaningful pre) ∧
      s.kindAfter? pre.length = firstKind? (meaningful post) := by
  rw [kindBefore?_eq, kindAfter?_eq, h]
  constructor
  · rw [List.take_left]
    rfl
  · rw [← List.drop_drop, List.drop_left]
    rfl

/-- The identifier `n` at position `k` is in a context. -/
def MentionedAt (s : TokenSeq) (context : Mention → Bool) (n : String) (k : Nat) : Prop :=
  s.tokens[k]? = some ⟨.identifier, n⟩ ∧ context ⟨s.kindBefore? k, n, s.kindAfter? k⟩ = true

theorem mem_namesWhere_tokens_iff {context : Mention → Bool} {n : String} :
    n ∈ namesWhere context (meaningful s.tokens) ↔
      isReserved n = false ∧ ∃ k, s.MentionedAt context n k := by
  rw [mem_namesWhere_iff]
  refine and_congr_right fun _ => ?_
  constructor
  · rintro ⟨us, vs, heq, hctx⟩
    obtain ⟨pre, post, htokens, rfl, rfl⟩ := exists_of_meaningful_eq heq
    obtain ⟨hbefore, hafter⟩ := neighbours_of_cut htokens
    refine ⟨pre.length, by simp [htokens], ?_⟩
    rwa [hbefore, hafter]
  · rintro ⟨k, hget, hctx⟩
    obtain ⟨pre, post, htokens, rfl⟩ := exists_cut hget
    obtain ⟨hbefore, hafter⟩ := neighbours_of_cut htokens
    rw [hbefore, hafter] at hctx
    refine ⟨meaningful pre, meaningful post, ?_, hctx⟩
    rw [htokens, meaningful_append]
    rfl

theorem mem_namesWhere_between_iff {context : Mention → Bool} (hctx : IsInnerContext context)
    {o c : Nat} (h : s.blockEnd? .parenthesis o = some c) {n : String} :
    n ∈ namesWhere context (meaningful (s.between o c)) ↔
      isReserved n = false ∧ ∃ k, o < k ∧ k < c ∧ s.MentionedAt context n k := by
  obtain ⟨front, t, body, u, rest, htokens, rfl, rfl, ht, hu, -⟩ := exists_of_blockEnd? h
  rw [(between_of_cut htokens).1, mem_namesWhere_iff]
  -- a cut of the body is a cut of the sequence
  have hcut {pre post : List Token} (hbody : body = pre ++ ⟨.identifier, n⟩ :: post) :
      s.MentionedAt context n (front.length + 1 + pre.length) ↔
        context ⟨lastKind? (meaningful pre), n, firstKind? (meaningful post)⟩ = true := by
    have htokens : s.tokens = (front ++ t :: pre) ++ ⟨.identifier, n⟩ :: (post ++ u :: rest) := by
      simp [htokens, hbody]
    have hlen : front.length + 1 + pre.length = (front ++ t :: pre).length := by
      simp only [List.length_append, List.length_cons]
      omega
    have hget : s.tokens[front.length + 1 + pre.length]? = some ⟨.identifier, n⟩ := by
      rw [hlen, htokens]
      simp
    obtain ⟨hbefore, hafter⟩ := neighbours_of_cut htokens
    rw [← hlen, meaningful_append,
      meaningful_cons_of_pos (Bracket.isMeaningful_of_opener ht)] at hbefore
    rw [← hlen, meaningful_append,
      meaningful_cons_of_pos (Bracket.isMeaningful_of_closer hu)] at hafter
    rw [MentionedAt, hbefore, hafter, hctx.enclosed ht hu]
    exact and_iff_right hget
  refine and_congr_right fun _ => ?_
  constructor
  · rintro ⟨us, vs, heq, hmention⟩
    obtain ⟨pre, post, hbody, rfl, rfl⟩ := exists_of_meaningful_eq heq
    have hlen := congrArg List.length hbody
    rw [List.length_append, List.length_cons] at hlen
    exact ⟨front.length + 1 + pre.length, by omega, by omega, (hcut hbody).2 hmention⟩
  · rintro ⟨k, hok, hkc, hmention⟩
    have hget : body[k - (front.length + 1)]? = some ⟨.identifier, n⟩ := by
      rw [← (between_of_cut htokens).1, between, List.getElem?_take, if_pos (by omega),
        List.getElem?_drop, show front.length + 1 + (k - (front.length + 1)) = k by omega]
      exact hmention.1
    obtain ⟨pre, post, hbody, hlen⟩ := exists_cut hget
    rw [show k = front.length + 1 + pre.length by omega, hcut hbody] at hmention
    refine ⟨meaningful pre, meaningful post, ?_, hmention⟩
    rw [hbody, meaningful_append]
    rfl

/-- A property of the tokens behind some keyword, by the keyword's position. -/
theorem exists_keyword_iff {w : Keyword} {P : List Token → Prop} :
    (∃ pre t post, meaningful s.tokens = pre ++ t :: post ∧ t.kind = .keyword w ∧ P post) ↔
      ∃ i, s.kindAt? i = some (.keyword w) ∧ P (meaningful (s.tokens.drop (i + 1))) := by
  constructor
  · rintro ⟨us, t, vs, heq, ht, hP⟩
    obtain ⟨pre, post, htokens, rfl, rfl⟩ := exists_of_meaningful_eq heq
    refine ⟨pre.length, by simp [kindAt?, htokens, ht], ?_⟩
    rwa [htokens, ← List.drop_drop, List.drop_left]
  · rintro ⟨i, hi, hP⟩
    obtain ⟨t, hget, ht⟩ := Option.map_eq_some_iff.1 hi
    obtain ⟨pre, post, htokens, rfl⟩ := exists_cut hget
    rw [htokens, ← List.drop_drop, List.drop_left] at hP
    refine ⟨meaningful pre, t, meaningful post, ?_, ht, hP⟩
    have hmeaningful : t.isMeaningful = true := by
      rw [Token.isMeaningful, ht]
      rfl
    rw [htokens, meaningful_append, meaningful_cons_of_pos hmeaningful]

/-- Parentheses from `o` to `c` that directly follow a `catch`. -/
def IsCatchClause (s : TokenSeq) (o c : Nat) : Prop :=
  ∃ i, s.kindAt? i = some (.keyword .catchKw) ∧ s.nextMeaningful? i = some o ∧
    s.blockEnd? .parenthesis o = some c

/-- Parentheses from `o` to `c` that enclose the parameters of a function. -/
def IsParameterList (s : TokenSeq) (o c : Nat) : Prop :=
  ∃ i, s.kindAt? i = some (.keyword .functionKw) ∧ s.parametersOpen? i = some o ∧
    s.blockEnd? .parenthesis o = some c

/-- Position `k` is that of the type of a function's result, after a parameter list that ends
at `c`: between a colon and the body or the end of the declaration. -/
def IsResultAt (s : TokenSeq) (c k : Nat) : Prop :=
  ∃ i, s.nextMeaningful? c = some i ∧ s.kindAt? i = some .colon ∧ s.prevMeaningful? k = some i ∧
    (s.kindAfter? k = some .lBrace ∨ s.kindAfter? k = some .semicolon)

theorem leadingBlock?_eq_some_iff {b : Bracket} {i : Nat} {body rest : List Token} :
    leadingBlock? b (meaningful (s.tokens.drop (i + 1))) = some (body, rest) ↔
      ∃ o c, s.nextMeaningful? i = some o ∧ s.blockEnd? b o = some c ∧
        body = meaningful (s.between o c) ∧ rest = meaningful (s.tokens.drop (c + 1)) := by
  rw [← meaningfulFrom_nextMeaningful?]
  exact leadingBlock?_meaningfulFrom_iff (isMeaningfulAt_nextMeaningful? s i)

theorem mem_caughtTypes_iff {n : String} :
    n ∈ caughtTypes s.tokens ↔
      isReserved n = false ∧ ∃ k o c, s.IsCatchClause o c ∧ o < k ∧ k < c ∧
        s.MentionedAt Mention.isCaught n k := by
  rw [caughtTypes, mem_caughtTypesFrom_iff, Catches, exists_keyword_iff]
  constructor
  · rintro ⟨i, hi, clause, rest, hclause, hn⟩
    obtain ⟨o, c, ho, hc, rfl, rfl⟩ := leadingBlock?_eq_some_iff.1 hclause
    obtain ⟨hreserved, k, hk⟩ := (mem_namesWhere_between_iff isInnerContext_isCaught hc).1 hn
    exact ⟨hreserved, k, o, c, ⟨i, hi, ho, hc⟩, hk⟩
  · rintro ⟨hreserved, k, o, c, ⟨i, hi, ho, hc⟩, hk⟩
    exact ⟨i, hi, _, _, leadingBlock?_eq_some_iff.2 ⟨o, c, ho, hc, rfl, rfl⟩,
      (mem_namesWhere_between_iff isInnerContext_isCaught hc).2 ⟨hreserved, k, hk⟩⟩

theorem parameters?_eq_some_iff {i : Nat} {params rest : List Token} :
    parameters? (meaningful (s.tokens.drop (i + 1))) = some (params, rest) ↔
      ∃ o c, s.parametersOpen? i = some o ∧ s.blockEnd? .parenthesis o = some c ∧
        params = meaningful (s.between o c) ∧ rest = meaningful (s.tokens.drop (c + 1)) := by
  obtain ⟨hamp, hdropAmp⟩ := dropKind_meaningfulFrom (isMeaningfulAt_nextMeaningful? s i) .ampersand
  obtain ⟨hopen, hdropName⟩ := dropKind_meaningfulFrom hamp .identifier
  rw [parameters?, ← meaningfulFrom_nextMeaningful?, hdropAmp, hdropName,
    leadingBlock?_meaningfulFrom_iff hopen]
  rfl

theorem resultType?_drop_eq_some_iff {c : Nat} {n : String} :
    resultType? (meaningful (s.tokens.drop (c + 1))) = some n ↔
      isReserved n = false ∧ ∃ k, s.tokens[k]? = some ⟨.identifier, n⟩ ∧ s.IsResultAt c k := by
  rw [resultType?_eq_some_iff]
  refine and_congr_right fun _ => ?_
  constructor
  · rintro ⟨colon, stop, rest, heq, hcolon, hstop⟩
    obtain ⟨i, hi, hgeti, heq⟩ := meaningful_drop_eq_cons_iff.1 heq
    obtain ⟨k, hk, hgetk, heq⟩ := meaningful_drop_eq_cons_iff.1 heq
    refine ⟨k, hgetk, i, hi, by rw [kindAt?, hgeti, ← hcolon]; rfl, ?_, ?_⟩
    · exact (prevMeaningful?_eq_iff (next?_eq_some_iff.1 hi).2.1 (next?_eq_some_iff.1 hk).2.1).2 hk
    · rw [kindAfter?_eq, heq]
      simpa using hstop
  · rintro ⟨k, hgetk, i, hi, hkind, hk, hstop⟩
    have hidentifier : s.tokens[k]?.any Token.isMeaningful = true := by rw [hgetk]; rfl
    have hnext := (prevMeaningful?_eq_iff (next?_eq_some_iff.1 hi).2.1 hidentifier).1 hk
    obtain ⟨colon, hgeti, hcolon⟩ := Option.map_eq_some_iff.1 hkind
    have hafter : ∃ stop, (meaningful (s.tokens.drop (k + 1))).head? = some stop ∧
        (stop.kind = .lBrace ∨ stop.kind = .semicolon) := by
      rw [kindAfter?_eq] at hstop
      simpa [← exists_or, ← and_or_left] using hstop
    obtain ⟨stop, hhead, hstop⟩ := hafter
    obtain ⟨rest, hrest⟩ := List.head?_eq_some_iff.1 hhead
    refine ⟨colon, stop, rest, ?_, hcolon, hstop⟩
    exact meaningful_drop_eq_cons_iff.2
      ⟨i, hi, hgeti, meaningful_drop_eq_cons_iff.2 ⟨k, hnext, hgetk, hrest⟩⟩

theorem mem_signatureTypes_iff {n : String} :
    n ∈ signatureTypes s.tokens ↔
      isReserved n = false ∧ ∃ k o c, s.IsParameterList o c ∧
        (o < k ∧ k < c ∧ s.MentionedAt Mention.isHint n k ∨
          s.tokens[k]? = some ⟨.identifier, n⟩ ∧ s.IsResultAt c k) := by
  rw [signatureTypes, mem_signatureTypesFrom_iff, exists_keyword_iff]
  constructor
  · rintro ⟨i, hi, hn⟩
    obtain ⟨params, rest, hparams, hn⟩ := mem_typesOfSignature_iff.1 hn
    obtain ⟨o, c, ho, hc, rfl, rfl⟩ := parameters?_eq_some_iff.1 hparams
    rcases hn with hn | hn
    · obtain ⟨hreserved, k, hk⟩ := (mem_namesWhere_between_iff isInnerContext_isHint hc).1 hn
      exact ⟨hreserved, k, o, c, ⟨i, hi, ho, hc⟩, .inl hk⟩
    · obtain ⟨hreserved, k, hk⟩ := resultType?_drop_eq_some_iff.1 hn
      exact ⟨hreserved, k, o, c, ⟨i, hi, ho, hc⟩, .inr hk⟩
  · rintro ⟨hreserved, k, o, c, ⟨i, hi, ho, hc⟩, hk⟩
    refine ⟨i, hi, mem_typesOfSignature_iff.2
      ⟨_, _, parameters?_eq_some_iff.2 ⟨o, c, ho, hc, rfl, rfl⟩, ?_⟩⟩
    rcases hk with hk | hk
    · exact .inl ((mem_namesWhere_between_iff isInnerContext_isHint hc).2 ⟨hreserved, k, hk⟩)
    · exact .inr (resultType?_drop_eq_some_iff.2 ⟨hreserved, k, hk⟩)

-- ---------------------------------------------------------------------------
-- All usages
-- ---------------------------------------------------------------------------

/-- The identifier at position `k` is used as the name of a class. -/
inductive UsedAt (s : TokenSeq) (k : Nat) : Prop
  /-- It stands between `new` and its arguments or the end of the statement. -/
  | instantiated : s.kindBefore? k = some (.keyword .newKw) →
      s.kindAfter? k = some .lParen ∨ s.kindAfter? k = some .semicolon → UsedAt s k
  /-- It stands bare before `::`. -/
  | accessed : s.kindBefore? k ≠ some .nsSeparator → s.kindAfter? k = some .doubleColon →
      UsedAt s k
  /-- It stands bare before a variable or a `|` in a catch clause. -/
  | caught (o c : Nat) : s.IsCatchClause o c → o < k → k < c →
      s.kindBefore? k ≠ some .nsSeparator →
      s.kindAfter? k = some .variable ∨ s.kindAfter? k = some .pipe → UsedAt s k
  /-- It stands bare before a variable in the parameters of a function. -/
  | hinted (o c v : Nat) : s.IsParameterList o c → o < v → v < c →
      s.kindBefore? k ≠ some .nsSeparator → s.nextMeaningful? k = some v →
      s.kindAt? v = some .variable → UsedAt s k
  /-- It stands between the colon after a function's parameters and the body or the end. -/
  | returned (o c : Nat) : s.IsParameterList o c → s.IsResultAt c k → UsedAt s k

/-- A name that counts as used is no part of a qualified name. -/
theorem UsedAt.not_qualified {k : Nat} (h : s.UsedAt k) :
    s.kindBefore? k ≠ some .nsSeparator ∧ s.kindAfter? k ≠ some .nsSeparator := by
  cases h with
  | instantiated hbefore hafter =>
    refine ⟨by simp [hbefore], ?_⟩
    rcases hafter with hafter | hafter <;> simp [hafter]
  | accessed hbefore hafter => exact ⟨hbefore, by simp [hafter]⟩
  | caught o c _ _ _ hbefore hafter =>
    refine ⟨hbefore, ?_⟩
    rcases hafter with hafter | hafter <;> simp [hafter]
  | hinted o c v _ _ _ hbefore hnext hkind =>
    refine ⟨hbefore, ?_⟩
    simp [kindAfter?, hnext, hkind]
  | returned o c _ hresult =>
    obtain ⟨i, -, hcolon, hprev, hafter⟩ := hresult
    refine ⟨?_, ?_⟩
    · simp [kindBefore?, hprev, hcolon]
    · rcases hafter with hafter | hafter <;> simp [hafter]

/-- An identifier whose neighbour is a variable inside a block lies inside the block itself,
and the other way round. -/
theorem between_iff_of_nextMeaningful? {o c k v : Nat} {n : String}
    (h : s.blockEnd? .parenthesis o = some c) (hk : s.tokens[k]? = some ⟨.identifier, n⟩)
    (hnext : s.nextMeaningful? k = some v) (hv : s.kindAt? v = some .variable) :
    o < k ∧ k < c ↔ o < v ∧ v < c := by
  obtain ⟨hopen, hclose⟩ := kindAt?_of_blockEnd? h
  obtain ⟨hkv, -, htrivia⟩ := next?_eq_some_iff.1 hnext
  have hkind : s.kindAt? k = some .identifier := by rw [kindAt?, hk]; rfl
  -- the brackets are neither of the two tokens, nor do they stand between them
  have hbracket {i : Nat} {a : Kind} (hi : s.kindAt? i = some a) (hseen : a.isMeaningful = true)
      (ha : a ≠ .identifier ∧ a ≠ .variable) : i < k ∨ v < i := by
    have hik : i ≠ k := by
      rintro rfl
      exact ha.1 (Option.some.inj (hi.symm.trans hkind))
    have hiv : i ≠ v := by
      rintro rfl
      exact ha.2 (Option.some.inj (hi.symm.trans hv))
    have hout : ¬(k < i ∧ i < v) := by
      rintro ⟨hki, hiv⟩
      obtain ⟨t, hget, rfl⟩ := Option.map_eq_some_iff.1 hi
      have hfalse := htrivia i hki hiv
      rw [hget, Option.any_some, Token.isMeaningful, hseen] at hfalse
      exact Bool.noConfusion hfalse
    omega
  have ho := hbracket hopen rfl (by decide)
  have hc := hbracket hclose rfl (by decide)
  omega

theorem IsParameterList.blockEnd?_eq {o c : Nat} (h : s.IsParameterList o c) :
    s.blockEnd? .parenthesis o = some c := by
  obtain ⟨_, _, _, hc⟩ := h
  exact hc

/-- Each scan only finds names at positions at which a name is used. -/
theorem exists_usedAt_of_mem_usedNames {n : String} (h : n ∈ usedNames s.tokens) :
    isReserved n = false ∧ ∃ k, s.tokens[k]? = some ⟨.identifier, n⟩ ∧ s.UsedAt k := by
  rw [mem_usedNames, instantiations, staticAccesses, mem_namesWhere_tokens_iff,
    mem_namesWhere_tokens_iff, mem_caughtTypes_iff, mem_signatureTypes_iff] at h
  rcases h with ⟨hn, k, hget, hctx⟩ | ⟨hn, k, hget, hctx⟩ | ⟨hn, k, o, c, hclause, hok, hkc, hk⟩ |
    ⟨hn, k, o, c, hparams, hk⟩
  · refine ⟨hn, k, hget, ?_⟩
    rw [Bool.or_eq_true, Mention.isInstantiated_iff, Mention.isAccessed_iff] at hctx
    rcases hctx with ⟨hbefore, hafter⟩ | ⟨hafter, hbefore⟩
    · exact .instantiated hbefore hafter
    · exact .accessed hbefore hafter
  · obtain ⟨hafter, hbefore⟩ := Mention.isAccessed_iff.1 hctx
    exact ⟨hn, k, hget, .accessed hbefore hafter⟩
  · obtain ⟨hafter, hbefore⟩ := Mention.isCaught_iff.1 hk.2
    exact ⟨hn, k, hk.1, .caught o c hclause hok hkc hbefore hafter⟩
  · rcases hk with ⟨hok, hkc, hget, hctx⟩ | ⟨hget, hresult⟩
    · obtain ⟨hafter, hbefore⟩ := Mention.isHint_iff.1 hctx
      obtain ⟨v, hnext, hv⟩ := Option.bind_eq_some_iff.1 hafter
      have hpos := between_iff_of_nextMeaningful? hparams.blockEnd?_eq hget hnext hv
      obtain ⟨hov, hvc⟩ := hpos.1 ⟨hok, hkc⟩
      exact ⟨hn, k, hget, .hinted o c v hparams hov hvc hbefore hnext hv⟩
    · exact ⟨hn, k, hget, .returned o c hparams hresult⟩

/-- At each position at which a name is used it is found by one of the scans. -/
theorem UsedAt.mem_usedNames {k : Nat} {n : String} (h : s.UsedAt k)
    (hget : s.tokens[k]? = some ⟨.identifier, n⟩) (hn : isReserved n = false) :
    n ∈ usedNames s.tokens := by
  rw [PhpImports.mem_usedNames, instantiations, staticAccesses, mem_namesWhere_tokens_iff,
    mem_namesWhere_tokens_iff, mem_caughtTypes_iff, mem_signatureTypes_iff]
  cases h with
  | instantiated hbefore hafter =>
    refine .inl ⟨hn, k, hget, ?_⟩
    rw [Bool.or_eq_true]
    exact .inl (Mention.isInstantiated_iff.2 ⟨hbefore, hafter⟩)
  | accessed hbefore hafter =>
    exact .inr (.inl ⟨hn, k, hget, Mention.isAccessed_iff.2 ⟨hafter, hbefore⟩⟩)
  | caught o c hclause hok hkc hbefore hafter =>
    have hk : s.MentionedAt Mention.isCaught n k :=
      ⟨hget, Mention.isCaught_iff.2 ⟨hafter, hbefore⟩⟩
    exact .inr (.inr (.inl ⟨hn, k, o, c, hclause, hok, hkc, hk⟩))
  | hinted o c v hparams hov hvc hbefore hnext hv =>
    have hafter : s.kindAfter? k = some .variable := by
      rw [kindAfter?, hnext, Option.bind_some, hv]
    have hk : s.MentionedAt Mention.isHint n k :=
      ⟨hget, Mention.isHint_iff.2 ⟨hafter, hbefore⟩⟩
    have hpos := between_iff_of_nextMeaningful? hparams.blockEnd?_eq hget hnext hv
    obtain ⟨hok, hkc⟩ := hpos.2 ⟨hov, hvc⟩
    exact .inr (.inr (.inr ⟨hn, k, o, c, hparams, .inl ⟨hok, hkc, hk⟩⟩))
  | returned o c hparams hresult =>
    exact .inr (.inr (.inr ⟨hn, k, o, c, hparams, .inr ⟨hget, hresult⟩⟩))

end TokenSeq

/-- The used names, each once, are the names at the positions at which a name is used; none of
these positions is inside a qualified name. -/
theorem usedNames_eq_usedAt (s : TokenSeq) :
    (usedNames s.tokens).Nodup ∧
      (∀ n, n ∈ usedNames s.tokens ↔
        ∃ k, s.tokens[k]? = some ⟨.identifier, n⟩ ∧
          (∀ r : ReservedName, equalIgnoringCase r.spelling n = false) ∧ s.UsedAt k) ∧
      ∀ k, s.UsedAt k →
        s.kindBefore? k ≠ some .nsSeparator ∧ s.kindAfter? k ≠ some .nsSeparator := by
  refine ⟨nodup_usedNames _, fun n => ?_, fun k hk => hk.not_qualified⟩
  rw [← isReserved_eq_false_iff]
  constructor
  · intro h
    obtain ⟨hn, k, hget, hused⟩ := TokenSeq.exists_usedAt_of_mem_usedNames h
    exact ⟨k, hget, hn, hused⟩
  · rintro ⟨k, hget, hn, hused⟩
    exact hused.mem_usedNames hget hn

/-- A clause that is closed is found inside one that is not. -/
theorem usedNames_eq_usedAt_openClause :
    let s := TokenSeq.ofList
      [⟨.keyword .catchKw, "catch"⟩, ⟨.lParen, "("⟩, ⟨.keyword .catchKw, "catch"⟩,
        ⟨.lParen, "("⟩, ⟨.identifier, "A"⟩, ⟨.whitespace, " "⟩, ⟨.variable, "$e"⟩, ⟨.rParen, ")"⟩]
    ∃ k, s.tokens[k]? = some ⟨.identifier, "A"⟩ ∧
      (∀ r : ReservedName, equalIgnoringCase r.spelling "A" = false) ∧ s.UsedAt k :=
  ((usedNames_eq_usedAt _).2.1 "A").1 (by decide +kernel)

end PhpImports
