import PhpImports.Proofs.Names.Used

/-!
# PhpImports — tokens that the scans do not see

Import statements change nothing of what a unit uses or declares. Put behind a `;` or a
`{`, they leave every scan but the one for imports with the same result: their words
stand before a separator or a `;` only, they hold no brackets, and what follows them
still follows the end of a statement.

## Results

* `Inert` — blocks of such tokens.
* `Inserted` — a block put in behind a `;` or a `{`.
* `Inserted.outcome_closeBlock` — blocks in brackets close at the same bracket.
* `Inserted.sameUsages` — usages and declarations stay.
-/

namespace PhpImports

/-- A word: an identifier, or a reserved word other than `use`. -/
def Kind.isWord : Kind → Bool
  | .identifier => true
  | .keyword w => w ≠ .useKw
  | _ => false

/-- The other tokens of an import, its end included. -/
def Kind.isLink : Kind → Bool
  | .keyword .useKw | .nsSeparator | .lNumber | .dNumber | .semicolon => true
  | _ => false

theorem Kind.ne_of_isLink {j k : Kind} (hj : j.isLink = true) (hk : k.isLink = false) : j ≠ k := by
  rintro rfl
  rw [hj] at hk
  exact Bool.noConfusion hk

/-- A token of one of two kinds is of no third one. -/
theorem Kind.ne_of_eq_or {i j k l : Kind} (hk : k = i ∨ k = j) (hi : i ≠ l) (hj : j ≠ l) :
    k ≠ l := by
  rcases hk with rfl | rfl
  · exact hi
  · exact hj

/-- Tokens without trivia that end with a `;` and in which every word stands before a separator
or a `;`. -/
inductive Inert : List Token → Prop
  | stop {t : Token} : t.kind = .semicolon → Inert [t]
  | word {t u : Token} {ts : List Token} : t.kind.isWord = true →
      u.kind = .nsSeparator ∨ u.kind = .semicolon → Inert (u :: ts) → Inert (t :: u :: ts)
  | link {t : Token} {ts : List Token} : t.kind.isLink = true → Inert ts → Inert (t :: ts)

theorem Inert.append {b c : List Token} (hb : Inert b) (hc : Inert c) : Inert (b ++ c) := by
  induction hb with
  | stop ht => exact .link (by rw [ht]; rfl) hc
  | word ht hu _ ih => exact .word ht hu ih
  | link ht _ ih => exact .link ht ih

/-- Blocks one after another. -/
theorem Inert.flatMap {names : List String} {f : String → List Token}
    (hf : ∀ n, Inert (meaningful (f n))) (hne : names ≠ []) :
    Inert (meaningful (names.flatMap f)) := by
  induction names with
  | nil => exact absurd rfl hne
  | cons n names ih =>
    rw [List.flatMap_cons, meaningful_append]
    by_cases hnames : names = []
    · rw [hnames]
      simpa [meaningful] using hf n
    · exact (hf n).append (ih hnames)

/-- `Inserted b us vs`: the tokens `vs` are `us` with the block `b` put in behind a `;` or a
`{`. -/
inductive Inserted (b : List Token) : List Token → List Token → Prop
  | here {t : Token} (vs : List Token) : t.kind = .semicolon ∨ t.kind = .lBrace →
      Inserted b (t :: vs) (t :: (b ++ vs))
  | there (t : Token) {us vs : List Token} : Inserted b us vs → Inserted b (t :: us) (t :: vs)

theorem Inserted.head?_eq {b us vs : List Token} (h : Inserted b us vs) : vs.head? = us.head? := by
  cases h <;> rfl

theorem Inserted.append_left {b us vs : List Token} (ts : List Token) (h : Inserted b us vs) :
    Inserted b (ts ++ us) (ts ++ vs) := by
  induction ts with
  | nil => exact h
  | cons t ts ih => exact .there t ih

-- ---------------------------------------------------------------------------
-- Mentions
-- ---------------------------------------------------------------------------

/-- A context that only names mentioned in some usage are in, and that does not tell the
beginning of a block from the end of a statement. -/
structure IsUsageContext (context : Mention → Bool) : Prop where
  used : ∀ m, context m = true → (m.isInstantiated || m.isAccessed || m.isCaught) = true
  afterBrace : ∀ n after, context ⟨some .lBrace, n, after⟩ = context ⟨some .semicolon, n, after⟩

theorem isUsageContext_instantiations :
    IsUsageContext fun m => m.isInstantiated || m.isAccessed :=
  ⟨fun m h => by simp_all, fun n after => rfl⟩

theorem isUsageContext_isAccessed : IsUsageContext Mention.isAccessed :=
  ⟨fun m h => by simp_all, fun n after => rfl⟩

theorem isUsageContext_isCaught : IsUsageContext Mention.isCaught :=
  ⟨fun m h => by simp_all, fun n after => rfl⟩

theorem isUsageContext_isHint : IsUsageContext Mention.isHint := by
  refine ⟨?_, fun n after => rfl⟩
  intro m h
  rw [Mention.isHint, Bool.and_eq_true, decide_eq_true_eq] at h
  simp [Mention.isCaught, h.1, h.2]

/-- The names in a context among tokens that follow a token of kind `before`. -/
def namesAfter (context : Mention → Bool) (before : Option Kind) (ts : List Token) :
    List String :=
  ((mentionsAfter before ts).filter fun m => context m && !isReserved m.name).map Mention.name

section Mentions

variable {context : Mention → Bool}

theorem namesAfter_cons_of_ne {before : Option Kind} {t : Token} (ts : List Token)
    (ht : t.kind ≠ .identifier) :
    namesAfter context before (t :: ts) = namesAfter context (some t.kind) ts := by
  rw [namesAfter, mentionsAfter, if_neg ht]
  rfl

/-- A name before a separator or the end of a statement is in no context, unless it is
instantiated. -/
theorem namesAfter_cons_of_link (hctx : IsUsageContext context) {before : Option Kind}
    {t u : Token} (ts : List Token) (hbefore : before ≠ some (.keyword .newKw))
    (hu : u.kind = .nsSeparator ∨ u.kind = .semicolon) :
    namesAfter context before (t :: u :: ts) = namesAfter context (some t.kind) (u :: ts) := by
  by_cases ht : t.kind = .identifier
  · have hunused : context ⟨before, t.text, some u.kind⟩ = false := by
      rw [← Bool.not_eq_true]
      intro h
      have hused := hctx.used _ h
      rcases hu with hu | hu <;>
        simp [Mention.isInstantiated, Mention.isAccessed, Mention.isCaught, hu, hbefore] at hused
    rw [namesAfter, mentionsAfter, if_pos ht]
    simp [namesAfter, hunused]
  · exact namesAfter_cons_of_ne _ ht

theorem Inert.namesAfter_append {b : List Token} (hb : Inert b) (hctx : IsUsageContext context)
    {before : Option Kind} (vs : List Token)
    (hbefore : before ≠ some (.keyword .newKw) ∨ ∀ t ∈ b.head?, t.kind ≠ .identifier) :
    namesAfter context before (b ++ vs) = namesAfter context (some .semicolon) vs := by
  induction hb generalizing before with
  | stop ht =>
    rw [List.singleton_append, namesAfter_cons_of_ne _ (by rw [ht]; nofun), ht]
  | @word t u ts ht hu _ ih =>
    -- whatever the word is, the token after it is no identifier
    have hnext : ∀ v ∈ (u :: ts).head?, v.kind ≠ .identifier := by
      intro v hv
      cases hv
      exact Kind.ne_of_eq_or hu nofun nofun
    have hstep : namesAfter context before (t :: u :: (ts ++ vs)) =
        namesAfter context (some t.kind) (u :: (ts ++ vs)) := by
      rcases hbefore with hbefore | hbefore
      · exact namesAfter_cons_of_link hctx _ hbefore hu
      · exact namesAfter_cons_of_ne _ (hbefore t rfl)
    rw [List.cons_append, List.cons_append, hstep]
    exact ih (.inr hnext)
  | @link t ts ht _ ih =>
    have hnew : t.kind ≠ .keyword .newKw := Kind.ne_of_isLink ht rfl
    rw [List.cons_append, namesAfter_cons_of_ne _ (Kind.ne_of_isLink ht rfl)]
    exact ih (.inl fun h => hnew (Option.some.inj h))

theorem Inserted.namesAfter_eq {b us vs : List Token} (h : Inserted b us vs) (hb : Inert b)
    (hctx : IsUsageContext context) (before : Option Kind) :
    namesAfter context before vs = namesAfter context before us := by
  induction h generalizing before with
  | @here t vs ht =>
    have hkind : t.kind ≠ .identifier := Kind.ne_of_eq_or ht nofun nofun
    have hnew : t.kind ≠ .keyword .newKw := Kind.ne_of_eq_or ht nofun nofun
    rw [namesAfter_cons_of_ne _ hkind, namesAfter_cons_of_ne _ hkind,
      hb.namesAfter_append hctx vs (.inl fun h => hnew (Option.some.inj h))]
    rcases ht with ht | ht
    · rw [ht]
    · -- after the brace a mention has another neighbour than after the block
      rw [ht]
      cases vs with
      | nil => rfl
      | cons v vs =>
        by_cases hv : v.kind = .identifier
        · simp only [namesAfter, mentionsAfter, if_pos hv, List.filter_cons, hctx.afterBrace]
          split <;> rfl
        · rw [namesAfter_cons_of_ne _ hv, namesAfter_cons_of_ne _ hv]
  | @there t us vs h ih =>
    by_cases ht : t.kind = .identifier
    · have := ih (some t.kind)
      simp only [namesAfter] at this
      simp only [namesAfter, mentionsAfter, if_pos ht, h.head?_eq, List.filter_cons]
      split
      · rw [List.map_cons, List.map_cons, this]
      · exact this
    · rw [namesAfter_cons_of_ne _ ht, namesAfter_cons_of_ne _ ht, ih]

theorem Inserted.namesWhere_eq {b us vs : List Token} (h : Inserted b us vs) (hb : Inert b)
    (hctx : IsUsageContext context) : namesWhere context vs = namesWhere context us :=
  h.namesAfter_eq hb hctx none

end Mentions

-- ---------------------------------------------------------------------------
-- Brackets
-- ---------------------------------------------------------------------------

/-- What became of a block in brackets, and of the tokens behind it, after an insertion: there
is none either way, or the insertion lies behind it or inside it. -/
inductive BlockOutcome (b : List Token) :
    Option (List Token × List Token) → Option (List Token × List Token) → Prop
  | none : BlockOutcome b none none
  | behind (body : List Token) {rest rest' : List Token} : Inserted b rest rest' →
      BlockOutcome b (some (body, rest)) (some (body, rest'))
  | inside {body body' : List Token} (rest : List Token) : Inserted b body body' →
      BlockOutcome b (some (body, rest)) (some (body', rest))

theorem BlockOutcome.cons {b : List Token} {o o' : Option (List Token × List Token)} (t : Token)
    (h : BlockOutcome b o o') :
    BlockOutcome b (o.map fun (body, rest) => (t :: body, rest))
      (o'.map fun (body, rest) => (t :: body, rest)) := by
  cases h with
  | none => exact .none
  | behind body h => exact .behind (t :: body) h
  | inside rest h => exact .inside rest (.there t h)

theorem Inert.not_bracket {b : List Token} (hb : Inert b) (br : Bracket) :
    ∀ t ∈ b, t.kind ≠ br.opener ∧ t.kind ≠ br.closer := by
  have hword : ∀ k : Kind, k.isWord = true → k ≠ br.opener ∧ k ≠ br.closer := by
    intro k hk
    constructor
    · rintro rfl
      cases br <;> simp [Kind.isWord, Bracket.opener] at hk
    · rintro rfl
      cases br <;> simp [Kind.isWord, Bracket.closer] at hk
  have hlink : ∀ k : Kind, k.isLink = true → k ≠ br.opener ∧ k ≠ br.closer := by
    intro k hk
    exact ⟨Kind.ne_of_isLink hk (by cases br <;> rfl), Kind.ne_of_isLink hk (by cases br <;> rfl)⟩
  induction hb with
  | stop ht =>
    intro t h
    rw [List.mem_singleton.1 h]
    exact hlink _ (by rw [ht]; rfl)
  | word ht _ _ ih =>
    intro t h
    rcases List.mem_cons.1 h with rfl | h
    · exact hword _ ht
    · exact ih t h
  | link ht _ ih =>
    intro t h
    rcases List.mem_cons.1 h with rfl | h
    · exact hlink _ ht
    · exact ih t h

/-- Tokens that are no brackets belong to the block that is open. -/
theorem closeBlock_append {br : Bracket} {b : List Token}
    (hb : ∀ t ∈ b, t.kind ≠ br.opener ∧ t.kind ≠ br.closer) (depth : Nat) (vs : List Token) :
    closeBlock br depth (b ++ vs) =
      (closeBlock br depth vs).map fun (body, rest) => (b ++ body, rest) := by
  induction b with
  | nil => simp
  | cons t b ih =>
    obtain ⟨ho, hc⟩ := hb t List.mem_cons_self
    rw [List.cons_append, closeBlock_of_other _ _ ho hc,
      ih fun u hu => hb u (List.mem_cons_of_mem _ hu), Option.map_map]
    rfl

theorem Inserted.outcome_closeBlock {b us vs : List Token} (h : Inserted b us vs) (hb : Inert b)
    (br : Bracket) (depth : Nat) :
    BlockOutcome b (closeBlock br depth us) (closeBlock br depth vs) := by
  induction h generalizing depth with
  | @here t vs ht =>
    have hclose : t.kind ≠ br.closer := by
      cases br <;> exact Kind.ne_of_eq_or ht nofun nofun
    have hstep : ∀ d, BlockOutcome b
        ((closeBlock br d vs).map fun (body, rest) => (t :: body, rest))
        ((closeBlock br d (b ++ vs)).map fun (body, rest) => (t :: body, rest)) := by
      intro d
      rw [closeBlock_append (hb.not_bracket br) d vs]
      cases closeBlock br d vs with
      | none => exact .none
      | some p => exact .inside p.2 (.here p.1 ht)
    by_cases hopen : t.kind = br.opener
    · rw [closeBlock_of_opener _ _ hopen, closeBlock_of_opener _ _ hopen]
      exact hstep (depth + 1)
    · rw [closeBlock_of_other _ _ hopen hclose, closeBlock_of_other _ _ hopen hclose]
      exact hstep depth
  | @there t us vs h ih =>
    by_cases hopen : t.kind = br.opener
    · rw [closeBlock_of_opener _ _ hopen, closeBlock_of_opener _ _ hopen]
      exact (ih (depth + 1)).cons t
    · by_cases hclose : t.kind = br.closer
      · cases depth with
        | zero =>
          rw [closeBlock_zero_of_closer _ hclose, closeBlock_zero_of_closer _ hclose]
          exact .behind [] h
        | succ d =>
          rw [closeBlock_succ_of_closer _ _ hclose, closeBlock_succ_of_closer _ _ hclose]
          exact (ih d).cons t
      · rw [closeBlock_of_other _ _ hopen hclose, closeBlock_of_other _ _ hopen hclose]
        exact (ih depth).cons t

/-- No block in parentheses begins with a `;` or a `{`. -/
theorem Inserted.outcome_leadingBlock? {b us vs : List Token} (h : Inserted b us vs)
    (hb : Inert b) :
    BlockOutcome b (leadingBlock? .parenthesis us) (leadingBlock? .parenthesis vs) := by
  cases h with
  | @here t vs ht =>
    have hopen : t.kind ≠ Bracket.parenthesis.opener := Kind.ne_of_eq_or ht nofun nofun
    rw [leadingBlock?, leadingBlock?, if_neg hopen, if_neg hopen]
    exact .none
  | there t h =>
    rw [leadingBlock?, leadingBlock?]
    split
    · exact h.outcome_closeBlock hb .parenthesis 0
    · exact .none

-- ---------------------------------------------------------------------------
-- Catch clauses
-- ---------------------------------------------------------------------------

theorem caughtTypesFrom_skip (skip : Nat) (ts : List Token) :
    caughtTypesFrom skip ts = caughtTypesFrom 0 (ts.drop skip) := by
  induction ts generalizing skip with
  | nil => simp [caughtTypesFrom]
  | cons t ts ih =>
    cases skip with
    | zero => rfl
    | succ k =>
      rw [caughtTypesFrom, ih]
      rfl

/-- The tokens of a block in brackets, of its brackets and behind it. -/
theorem drop_of_leadingBlock? {br : Bracket} {ts body rest : List Token}
    (h : leadingBlock? br ts = some (body, rest)) : ts.drop (body.length + 2) = rest := by
  cases ts with
  | nil => simp [leadingBlock?] at h
  | cons t ts =>
    rw [leadingBlock?] at h
    split at h
    · obtain ⟨u, -, rfl⟩ := closeBlock_eq_append h
      simp
    · simp at h

/-- A catch clause is read, and the scan goes on behind it. -/
theorem caughtTypesFrom_cons (t : Token) (ts : List Token) :
    caughtTypesFrom 0 (t :: ts) =
      match if t.kind = .keyword .catchKw then leadingBlock? .parenthesis ts else none with
      | some (clause, rest) => namesWhere Mention.isCaught clause ++ caughtTypesFrom 0 rest
      | none => caughtTypesFrom 0 ts := by
  rw [caughtTypesFrom]
  cases hblock : (if t.kind = .keyword .catchKw then leadingBlock? .parenthesis ts else none) with
  | none => rfl
  | some p =>
    have hclause : leadingBlock? .parenthesis ts = some p := by
      split at hblock
      · exact hblock
      · simp at hblock
    dsimp only
    rw [caughtTypesFrom_skip, drop_of_leadingBlock? hclause]

theorem caughtTypesFrom_cons_of_ne {t : Token} (ts : List Token)
    (ht : t.kind ≠ .keyword .catchKw) : caughtTypesFrom 0 (t :: ts) = caughtTypesFrom 0 ts := by
  rw [caughtTypesFrom_cons, if_neg ht]

theorem Inert.caughtTypesFrom_append {b : List Token} (hb : Inert b) (vs : List Token) :
    caughtTypesFrom 0 (b ++ vs) = caughtTypesFrom 0 vs := by
  induction hb with
  | stop ht => exact caughtTypesFrom_cons_of_ne _ (by rw [ht]; nofun)
  | @word t u ts ht hu _ ih =>
    have hopen : u.kind ≠ Bracket.parenthesis.opener := Kind.ne_of_eq_or hu nofun nofun
    rw [← ih, List.cons_append, List.cons_append, caughtTypesFrom_cons, leadingBlock?,
      if_neg hopen]
    simp
  | @link t ts ht _ ih =>
    rw [List.cons_append, caughtTypesFrom_cons_of_ne _ (Kind.ne_of_isLink ht rfl), ih]

theorem Inserted.caughtTypesFrom_eq {b us vs : List Token} (h : Inserted b us vs)
    (hb : Inert b) : caughtTypesFrom 0 vs = caughtTypesFrom 0 us := by
  generalize hn : us.length = n
  induction n using Nat.strongRecOn generalizing us vs with
  | ind n ih =>
    cases h with
    | @here t vs ht =>
      have hkind : t.kind ≠ .keyword .catchKw := Kind.ne_of_eq_or ht nofun nofun
      rw [caughtTypesFrom_cons_of_ne _ hkind, caughtTypesFrom_cons_of_ne _ hkind,
        hb.caughtTypesFrom_append]
    | @there t us vs h =>
      have hnext : caughtTypesFrom 0 vs = caughtTypesFrom 0 us :=
        ih us.length (by rw [← hn, List.length_cons]; omega) h rfl
      by_cases ht : t.kind = .keyword .catchKw
      · rw [caughtTypesFrom_cons, caughtTypesFrom_cons, if_pos ht, if_pos ht]
        have hout := h.outcome_leadingBlock? hb
        generalize hus : leadingBlock? .parenthesis us = o at hout
        generalize leadingBlock? .parenthesis vs = o' at hout
        cases hout with
        | none => exact hnext
        | behind body hrest =>
          -- what is left behind the clause is shorter
          have hlen := congrArg List.length (drop_of_leadingBlock? hus)
          rw [List.length_drop] at hlen
          dsimp only
          rw [ih _ ?_ hrest rfl]
          rw [← hn, List.length_cons]
          omega
        | inside rest hbody =>
          dsimp only
          rw [hbody.namesWhere_eq hb isUsageContext_isCaught]
      · rw [caughtTypesFrom_cons_of_ne _ ht, caughtTypesFrom_cons_of_ne _ ht, hnext]

-- ---------------------------------------------------------------------------
-- Signatures
-- ---------------------------------------------------------------------------

theorem Inserted.after_dropKind {b us vs : List Token} (h : Inserted b us vs) {k : Kind}
    (hsemi : k ≠ .semicolon) (hbrace : k ≠ .lBrace) :
    Inserted b (dropKind k us) (dropKind k vs) := by
  cases h with
  | @here t vs ht =>
    have hkind : t.kind ≠ k := Kind.ne_of_eq_or ht hsemi.symm hbrace.symm
    rw [dropKind, dropKind, if_neg hkind, if_neg hkind]
    exact .here vs ht
  | there t h =>
    rw [dropKind, dropKind]
    split
    · exact h
    · exact .there t h

/-- The type of a result stands before the `;` or `{` behind which a block may be put in. -/
theorem Inserted.resultType?_eq {b us vs : List Token} (h : Inserted b us vs) :
    resultType? vs = resultType? us := by
  have hcolon : ∀ (t : Token) (ts : List Token), t.kind ≠ .colon →
      resultType? (t :: ts) = none := by
    intro t ts ht
    unfold resultType?
    split
    · next heq =>
      cases heq
      simp [ht]
    · rfl
  have htype : ∀ (t u : Token) (ts : List Token), u.kind ≠ .identifier →
      resultType? (t :: u :: ts) = none := by
    intro t u ts hu
    unfold resultType?
    split
    · next heq =>
      cases heq
      simp [hu]
    · rfl
  cases h with
  | @here t vs ht =>
    have hkind : t.kind ≠ .colon := Kind.ne_of_eq_or ht nofun nofun
    rw [hcolon _ _ hkind, hcolon _ _ hkind]
  | there colon h =>
    cases h with
    | @here t vs ht =>
      have hkind : t.kind ≠ .identifier := Kind.ne_of_eq_or ht nofun nofun
      rw [htype _ _ _ hkind, htype _ _ _ hkind]
    | there type h =>
      cases h with
      | here vs ht => rfl
      | there stop h => rfl

theorem Inserted.typesOfSignature_eq {b us vs : List Token} (h : Inserted b us vs)
    (hb : Inert b) : typesOfSignature vs = typesOfSignature us := by
  have hout := ((h.after_dropKind (k := .ampersand) nofun nofun).after_dropKind
    (k := .identifier) nofun nofun).outcome_leadingBlock? hb
  rw [typesOfSignature, typesOfSignature, parameters?, parameters?]
  generalize leadingBlock? .parenthesis _ = o at hout
  generalize leadingBlock? .parenthesis _ = o' at hout
  cases hout with
  | none => rfl
  | behind body hrest =>
    dsimp only
    rw [hrest.resultType?_eq]
  | inside rest hbody =>
    dsimp only
    rw [hbody.namesWhere_eq hb isUsageContext_isHint]

/-- A word before a separator or a `;` begins no signature. -/
theorem typesOfSignature_cons_of_link {u : Token} (ts : List Token)
    (hu : u.kind = .nsSeparator ∨ u.kind = .semicolon) : typesOfSignature (u :: ts) = [] := by
  rcases hu with hu | hu <;>
    simp [typesOfSignature, parameters?, dropKind, leadingBlock?, hu,
      Bracket.opener]

theorem signatureTypesFrom_cons_of_ne {t : Token} (ts : List Token)
    (ht : t.kind ≠ .keyword .functionKw) :
    signatureTypesFrom (t :: ts) = signatureTypesFrom ts := by
  rw [signatureTypesFrom, if_neg ht]

theorem Inert.signatureTypesFrom_append {b : List Token} (hb : Inert b) (vs : List Token) :
    signatureTypesFrom (b ++ vs) = signatureTypesFrom vs := by
  induction hb with
  | stop ht => exact signatureTypesFrom_cons_of_ne _ (by rw [ht]; nofun)
  | @word t u ts ht hu _ ih =>
    rw [← ih, List.cons_append, List.cons_append, signatureTypesFrom,
      typesOfSignature_cons_of_link _ hu]
    simp
  | @link t ts ht _ ih =>
    rw [List.cons_append, signatureTypesFrom_cons_of_ne _ (Kind.ne_of_isLink ht rfl), ih]

theorem Inserted.signatureTypesFrom_eq {b us vs : List Token} (h : Inserted b us vs)
    (hb : Inert b) : signatureTypesFrom vs = signatureTypesFrom us := by
  induction h with
  | @here t vs ht =>
    have hkind : t.kind ≠ .keyword .functionKw := Kind.ne_of_eq_or ht nofun nofun
    rw [signatureTypesFrom_cons_of_ne _ hkind, signatureTypesFrom_cons_of_ne _ hkind,
      hb.signatureTypesFrom_append]
  | there t h ih =>
    rw [signatureTypesFrom, signatureTypesFrom, h.typesOfSignature_eq hb, ih]

-- ---------------------------------------------------------------------------
-- Declarations
-- ---------------------------------------------------------------------------

theorem declaredTypesFrom_skip (skip : Nat) (ts : List Token) :
    declaredTypesFrom skip ts = declaredTypesFrom 0 (ts.drop skip) := by
  induction ts generalizing skip with
  | nil => simp [declaredTypesFrom]
  | cons t ts ih =>
    cases skip with
    | zero => rfl
    | succ k =>
      rw [declaredTypesFrom, ih]
      rfl

/-- The tokens behind the first block in braces. -/
def afterBraces? (ts : List Token) : Option (List Token) :=
  (leadingBlock? .curly (ts.dropWhile (·.kind ≠ .lBrace))).map Prod.snd

/-- The tokens behind the body of a declaration, from those behind its name. -/
def afterBody (ts : List Token) : List Token :=
  (afterBraces? ts).getD ts

theorem drop_bodyEnd (ts : List Token) : ts.drop (bodyEnd ts) = afterBody ts := by
  have hopen := @List.drop_left _ (ts.takeWhile fun t => t.kind ≠ .lBrace)
    (ts.dropWhile fun t => t.kind ≠ .lBrace)
  rw [List.takeWhile_append_dropWhile] at hopen
  unfold bodyEnd afterBody afterBraces?
  cases hblock : leadingBlock? .curly (ts.dropWhile (·.kind ≠ .lBrace)) with
  | none => rfl
  | some p =>
    dsimp only
    rw [Nat.add_assoc, ← List.drop_drop, hopen, drop_of_leadingBlock? hblock]
    rfl

/-- A declaration is read, and the scan goes on behind its body. -/
theorem declaredTypesFrom_cons (t : Token) (ts : List Token) :
    declaredTypesFrom 0 (t :: ts) =
      match if t.kind.isTypeDeclaration then declaredName? ts else none with
      | some (name, rest) => name :: declaredTypesFrom 0 (afterBody rest)
      | none => declaredTypesFrom 0 ts := by
  rw [declaredTypesFrom]
  cases hname : (if t.kind.isTypeDeclaration then declaredName? ts else none) with
  | none => rfl
  | some p =>
    have hsome : declaredName? ts = some p := by
      split at hname
      · exact hname
      · simp at hname
    have hdrop : ts.drop (1 + bodyEnd p.2) = afterBody p.2 := by
      cases ts with
      | nil => simp [declaredName?] at hsome
      | cons u us =>
        rw [declaredName?] at hsome
        split at hsome
        · cases hsome
          rw [Nat.add_comm, List.drop_succ_cons, drop_bodyEnd]
        · simp at hsome
    dsimp only
    rw [declaredTypesFrom_skip, hdrop]

theorem afterBraces?_cons_of_brace {t : Token} (ts : List Token) (ht : t.kind = .lBrace) :
    afterBraces? (t :: ts) = (closeBlock .curly 0 ts).map Prod.snd := by
  rw [afterBraces?, List.dropWhile_cons_of_neg (by simp [ht]), leadingBlock?]
  exact congrArg _ (if_pos ht)

theorem afterBraces?_append_of_ne {ts : List Token} (us : List Token)
    (h : ∀ t ∈ ts, t.kind ≠ .lBrace) : afterBraces? (ts ++ us) = afterBraces? us := by
  rw [afterBraces?, List.dropWhile_append_of_pos (by simpa using h), afterBraces?]

/-- A block put in before the end of the braces is passed over with them. -/
theorem Inserted.afterBraces?_eq_or {b us vs : List Token} (h : Inserted b us vs)
    (hb : Inert b) :
    afterBraces? vs = afterBraces? us ∨
      ∃ rest rest', afterBraces? us = some rest ∧ afterBraces? vs = some rest' ∧
        Inserted b rest rest' := by
  have hnone : ∀ t ∈ b, t.kind ≠ .lBrace := fun t ht => (hb.not_bracket .curly t ht).1
  induction h with
  | @here t vs ht =>
    left
    by_cases hkind : t.kind = .lBrace
    · rw [afterBraces?_cons_of_brace _ hkind, afterBraces?_cons_of_brace _ hkind,
        closeBlock_append (hb.not_bracket .curly), Option.map_map]
      rfl
    · have hhead : ∀ u ∈ [t], u.kind ≠ .lBrace := by simpa using hkind
      rw [← List.singleton_append, afterBraces?_append_of_ne _ hhead,
        afterBraces?_append_of_ne _ hnone, ← List.singleton_append,
        afterBraces?_append_of_ne _ hhead]
  | @there t us vs h ih =>
    by_cases hkind : t.kind = .lBrace
    · rw [afterBraces?_cons_of_brace _ hkind, afterBraces?_cons_of_brace _ hkind]
      have hout := h.outcome_closeBlock hb .curly 0
      generalize closeBlock .curly 0 us = o at hout
      generalize closeBlock .curly 0 vs = o' at hout
      cases hout with
      | none => exact .inl rfl
      | behind body hrest => exact .inr ⟨_, _, rfl, rfl, hrest⟩
      | inside rest hbody => exact .inl rfl
    · have hhead : ∀ u ∈ [t], u.kind ≠ .lBrace := by simpa using hkind
      rw [← List.singleton_append, afterBraces?_append_of_ne _ hhead, ← List.singleton_append,
        afterBraces?_append_of_ne _ hhead]
      exact ih

theorem Inserted.afterBody_eq_or {b us vs : List Token} (h : Inserted b us vs) (hb : Inert b) :
    afterBody vs = afterBody us ∨ Inserted b (afterBody us) (afterBody vs) := by
  rw [afterBody, afterBody]
  rcases h.afterBraces?_eq_or hb with heq | ⟨rest, rest', hus, hvs, hrest⟩
  · rw [heq]
    cases afterBraces? us with
    | none => exact .inr h
    | some rest => exact .inl rfl
  · rw [hus, hvs]
    exact .inr hrest

theorem declaredTypesFrom_cons_of_not {t : Token} (ts : List Token)
    (ht : t.kind.isTypeDeclaration = false) :
    declaredTypesFrom 0 (t :: ts) = declaredTypesFrom 0 ts := by
  rw [declaredTypesFrom_cons, ht]
  rfl

theorem Inert.declaredTypesFrom_append {b : List Token} (hb : Inert b) (vs : List Token) :
    declaredTypesFrom 0 (b ++ vs) = declaredTypesFrom 0 vs := by
  induction hb with
  | stop ht => exact declaredTypesFrom_cons_of_not _ (by rw [ht]; rfl)
  | @word t u ts ht hu _ ih =>
    have hkind : u.kind ≠ .identifier := Kind.ne_of_eq_or hu nofun nofun
    have hname : declaredName? (u :: (ts ++ vs)) = none := by rw [declaredName?, if_neg hkind]
    rw [← ih, List.cons_append, List.cons_append, declaredTypesFrom_cons, hname]
    simp
  | @link t ts ht _ ih =>
    rw [List.cons_append, declaredTypesFrom_cons_of_not _ ?_, ih]
    revert ht
    cases hk : t.kind with
    | keyword w => cases w <;> simp [Kind.isLink, Kind.isTypeDeclaration]
    | _ => simp [Kind.isLink, Kind.isTypeDeclaration]

theorem Inserted.declaredTypesFrom_eq {b us vs : List Token} (h : Inserted b us vs)
    (hb : Inert b) : declaredTypesFrom 0 vs = declaredTypesFrom 0 us := by
  generalize hn : us.length = n
  induction n using Nat.strongRecOn generalizing us vs with
  | ind n ih =>
    cases h with
    | @here t vs ht =>
      have hkind : t.kind.isTypeDeclaration = false := by
        rcases ht with ht | ht <;> rw [ht] <;> rfl
      rw [declaredTypesFrom_cons_of_not _ hkind, declaredTypesFrom_cons_of_not _ hkind,
        hb.declaredTypesFrom_append]
    | @there t us vs h =>
      have hlt : us.length < n := by rw [← hn, List.length_cons]; omega
      have hnext : declaredTypesFrom 0 vs = declaredTypesFrom 0 us := ih us.length hlt h rfl
      by_cases ht : t.kind.isTypeDeclaration = true
      · rw [declaredTypesFrom_cons, declaredTypesFrom_cons, if_pos ht, if_pos ht]
        cases h with
        | @here u vs hu =>
          have hkind : u.kind ≠ .identifier := Kind.ne_of_eq_or hu nofun nofun
          simp only [declaredName?, if_neg hkind]
          exact hnext
        | @there u us vs h =>
          by_cases hkind : u.kind = .identifier
          · simp only [declaredName?, if_pos hkind]
            congr 1
            rcases h.afterBody_eq_or hb with heq | hrest
            · rw [heq]
            · -- what is left behind the body is no longer than what came behind the name
              refine ih _ ?_ hrest rfl
              have hle : (afterBody us).length ≤ us.length := by
                rw [← drop_bodyEnd, List.length_drop]
                omega
              rw [List.length_cons] at hlt
              omega
          · simp only [declaredName?, if_neg hkind]
            exact hnext
      · rw [Bool.not_eq_true] at ht
        rw [declaredTypesFrom_cons_of_not _ ht, declaredTypesFrom_cons_of_not _ ht, hnext]

-- ---------------------------------------------------------------------------
-- Whole units
-- ---------------------------------------------------------------------------

/-- The marks behind which blocks are put are no trivia. -/
theorem isMeaningful_of_mark {t : Token} (ht : t.kind = .semicolon ∨ t.kind = .lBrace) :
    t.isMeaningful = true := by
  rcases ht with ht | ht <;> rw [Token.isMeaningful, ht] <;> rfl

/-- A block put into a unit behind a token, seen without trivia. -/
theorem inserted_meaningful (pre post : List Token) {t : Token} (block : List Token)
    (ht : t.kind = .semicolon ∨ t.kind = .lBrace) :
    Inserted (meaningful block) (meaningful (pre ++ t :: post))
      (meaningful (pre ++ t :: (block ++ post))) := by
  have hsplit : ∀ ts, meaningful (pre ++ t :: ts) = meaningful pre ++ t :: meaningful ts := by
    intro ts
    rw [meaningful_append]
    exact congrArg _ (List.filter_cons_of_pos (isMeaningful_of_mark ht))
  rw [hsplit, hsplit, meaningful_append]
  exact .append_left _ (.here _ ht)

section Units

variable {ts us b : List Token} (h : Inserted b (meaningful ts) (meaningful us)) (hb : Inert b)

include h hb

theorem Inserted.sameUsages : SameUsages ts us where
  instantiations_eq := h.namesWhere_eq hb isUsageContext_instantiations
  staticAccesses_eq := h.namesWhere_eq hb isUsageContext_isAccessed
  caughtTypes_eq := h.caughtTypesFrom_eq hb
  signatureTypes_eq := h.signatureTypesFrom_eq hb
  declaredTypes_eq := h.declaredTypesFrom_eq hb

theorem Inserted.usedNames_eq : usedNames us = usedNames ts :=
  (h.sameUsages hb).usedNames_eq

theorem Inserted.declaredTypes_eq : declaredTypes us = declaredTypes ts :=
  (h.sameUsages hb).declaredTypes_eq

end Units

end PhpImports
