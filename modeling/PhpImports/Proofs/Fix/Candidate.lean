import PhpImports.Proofs.Fix.Outcome
import PhpImports.Proofs.Names.NamespacePlace
import PhpImports.Proofs.Names.UsedAt
import PhpImports.Proofs.Token.Tally

/-!
# PhpImports — which files are looked at

Before a file is fixed, the tally of its tokens is asked whether it can need a fix at
all: there has to be a `namespace`, and a word or mark with which some class may be used.
A file that is passed over for this reason is one in which a fix would put in nothing,
so that with a complete configuration the question makes no difference. Without one it
decides whether the error is reported.

## Results

* `MayNeedImports`                — what the question to the tally is.
* `mayNeedImports_of_inserted`    — a unit into which a fix puts imports may need them.
* `Fixer.isCandidate_ofList_iff`  — the tally answers the question.
* `Fixer.fixFile_eq_ok`           — a file, fixed with a complete configuration.
* `Fixer.fixFile_eq_of_incomplete` — and with one that is not.
* `Fixer.fixFile_spec`            — what fixing a file returns, case by case.
-/

namespace PhpImports

-- ---------------------------------------------------------------------------
-- Units that may need imports
-- ---------------------------------------------------------------------------

/-- A unit with a `namespace` in which a class may be used: each usage comes with one of these
words or marks. -/
def MayNeedImports (ts : List Token) : Prop :=
  (∃ t ∈ ts, t.kind = .keyword .namespaceKw) ∧
    ∃ t ∈ ts, t.kind = .keyword .newKw ∨ t.kind = .doubleColon ∨
      t.kind = .keyword .catchKw ∨ t.kind = .keyword .functionKw

theorem MayNeedImports.mono {ts us : List Token} (h : MayNeedImports ts)
    (hsub : ∀ t ∈ ts, t ∈ us) : MayNeedImports us := by
  obtain ⟨⟨t, ht, hnamespace⟩, u, hu, husage⟩ := h
  exact ⟨⟨t, hsub t ht, hnamespace⟩, u, hsub u hu, husage⟩

theorem TokenSeq.exists_of_kindAt? {s : TokenSeq} {i : Nat} {k : Kind}
    (h : s.kindAt? i = some k) : ∃ t ∈ s.tokens, t.kind = k := by
  obtain ⟨t, hget, hkind⟩ := Option.map_eq_some_iff.1 h
  exact ⟨t, List.mem_of_getElem? hget, hkind⟩

/-- Where a class is used there is one of the words and marks of usages. -/
theorem TokenSeq.UsedAt.exists_usageKind {s : TokenSeq} {k : Nat} (h : s.UsedAt k) :
    ∃ t ∈ s.tokens, t.kind = .keyword .newKw ∨ t.kind = .doubleColon ∨
      t.kind = .keyword .catchKw ∨ t.kind = .keyword .functionKw := by
  cases h with
  | instantiated hbefore hafter =>
    obtain ⟨i, -, hi⟩ := Option.bind_eq_some_iff.1 hbefore
    obtain ⟨t, ht, hkind⟩ := exists_of_kindAt? hi
    exact ⟨t, ht, .inl hkind⟩
  | accessed hbefore hafter =>
    obtain ⟨i, -, hi⟩ := Option.bind_eq_some_iff.1 hafter
    obtain ⟨t, ht, hkind⟩ := exists_of_kindAt? hi
    exact ⟨t, ht, .inr (.inl hkind)⟩
  | caught o c hclause hok hkc hbefore hafter =>
    obtain ⟨i, hi, -, -⟩ := hclause
    obtain ⟨t, ht, hkind⟩ := exists_of_kindAt? hi
    exact ⟨t, ht, .inr (.inr (.inl hkind))⟩
  | hinted o c v hparams hov hvc hbefore hnext hv =>
    obtain ⟨i, hi, -, -⟩ := hparams
    obtain ⟨t, ht, hkind⟩ := exists_of_kindAt? hi
    exact ⟨t, ht, .inr (.inr (.inr hkind))⟩
  | returned o c hparams hresult =>
    obtain ⟨i, hi, -, -⟩ := hparams
    obtain ⟨t, ht, hkind⟩ := exists_of_kindAt? hi
    exact ⟨t, ht, .inr (.inr (.inr hkind))⟩

theorem exists_namespaceKw {ts : List Token} {ns : NamespaceDecl}
    (h : namespaceDecl? ts = some ns) : ∃ t ∈ ts, t.kind = .keyword .namespaceKw := by
  obtain ⟨pre, word, name, stop, post, hdecl⟩ := exists_declares h
  exact ⟨word, by rw [hdecl.cut]; simp, hdecl.word_kind⟩

theorem inserted_eq_nil_iff (part : String) (s : TokenSeq) :
    (fixTokens part s).inserted = [] ↔
      namespaceDecl? s.tokens = none ∨ missingNames s.tokens = [] := by
  unfold fixTokens
  cases namespaceDecl? s.tokens with
  | none => simp
  | some ns =>
    dsimp only
    split
    · next h => simp_all
    · next h => simp_all

/-- A unit into which a fix puts imports has a namespace and uses a class. -/
theorem mayNeedImports_of_inserted {part : String} {s : TokenSeq}
    (h : (fixTokens part s).inserted ≠ []) : MayNeedImports s.tokens := by
  rw [ne_eq, inserted_eq_nil_iff, not_or] at h
  obtain ⟨hns, hmissing⟩ := h
  obtain ⟨ns, hns⟩ := Option.ne_none_iff_exists'.1 hns
  obtain ⟨n, hn⟩ := List.exists_mem_of_ne_nil _ hmissing
  obtain ⟨-, k, -, hused⟩ :=
    TokenSeq.exists_usedAt_of_mem_usedNames (s := s) (mem_missingNames.1 hn).1
  exact ⟨exists_namespaceKw hns, hused.exists_usageKind⟩

namespace Fixer

variable {f : Fixer} {part : String} {file : SourceFile} {target : Version}

-- ---------------------------------------------------------------------------
-- The question to the tally
-- ---------------------------------------------------------------------------

theorem isCandidate_ofList_iff {ts : List Token} :
    isCandidate (.ofList ts) target = true ↔ target.isLegacy = true ∧ MayNeedImports ts := by
  rw [isCandidate, Bool.and_eq_true, Bool.and_eq_true, TokenSeq.hasKind_ofList_iff,
    TokenSeq.hasAnyKind_ofList_iff, and_assoc, MayNeedImports]
  simp [usageKinds]

/-- A candidate stays one if tokens are added to it. -/
theorem isCandidate_mono {ts us : List Token} (h : isCandidate (.ofList ts) target = true)
    (hsub : ∀ t ∈ ts, t ∈ us) : isCandidate (.ofList us) target = true := by
  rw [isCandidate_ofList_iff] at h ⊢
  exact ⟨h.1, h.2.mono hsub⟩

-- ---------------------------------------------------------------------------
-- Files
-- ---------------------------------------------------------------------------

/-- A file for which there is a new text: it is looked at, and imports were put in. -/
theorem exists_of_fixFile_eq_some (hset : f.config.namespacePrefix = some part) {text : String}
    (h : f.fixFile file target = .ok (some text)) :
    isBlankText part = false ∧ f.supports file.path = true ∧
      isCandidate (.ofSource file.source) target = true ∧
      (fixTokens part (.ofSource file.source)).inserted ≠ [] ∧
      text = (fixTokens part (.ofSource file.source)).tokens.source := by
  unfold fixFile at h
  split at h
  · next hsupports =>
    dsimp only at h
    split at h
    · next hcandidate =>
      cases hblank : isBlankText part with
      | true =>
        rw [fix_eq_error (by simp [hset, hblank])] at h
        simp at h
      | false =>
        rw [fix_eq_ok hset hblank] at h
        simp only [Except.ok.injEq] at h
        split at h
        · next hchanged =>
          refine ⟨rfl, hsupports, hcandidate, ?_, (Option.some.inj h).symm⟩
          simpa [Fixed.isChanged] using hchanged
        · simp at h
    · simp at h
  · simp at h

/-- What a fix makes of a file that is not passed over for its path or its version. Whether it is
a candidate makes no difference. -/
theorem fixFile_eq_ok (file : SourceFile) (hset : f.config.namespacePrefix = some part)
    (hblank : isBlankText part = false) (hsupports : f.supports file.path = true)
    (hlegacy : target.isLegacy = true) :
    f.fixFile file target =
      .ok (if (fixTokens part (.ofSource file.source)).isChanged then
        some (fixTokens part (.ofSource file.source)).tokens.source else none) := by
  rw [fixFile, if_pos hsupports]
  dsimp only
  split
  · rw [fix_eq_ok hset hblank]
  · next hcandidate =>
    have hunchanged : (fixTokens part (.ofSource file.source)).isChanged = false := by
      rw [Fixed.isChanged, Bool.not_eq_false', List.isEmpty_iff]
      by_contra hins
      exact hcandidate (isCandidate_ofList_iff.2 ⟨hlegacy, mayNeedImports_of_inserted hins⟩)
    rw [hunchanged]
    rfl

theorem fixFile_eq_of_tokenize {path source : String} {ts : List Token}
    (hts : tokenize source = ts) (hset : f.config.namespacePrefix = some part)
    (hblank : isBlankText part = false) (hsupports : f.supports path = true)
    (hcandidate : isCandidate (.ofList ts) target = true) {o : Option String}
    (ho : (if (fixTokens part (.ofList ts)).isChanged then
      some (fixTokens part (.ofList ts)).tokens.source else none) = o) :
    f.fixFile ⟨path, source⟩ target = .ok o := by
  subst hts ho
  exact fixFile_eq_ok ⟨path, source⟩ hset hblank hsupports (isCandidate_ofList_iff.1 hcandidate).1

theorem fixFile_eq_none_iff (file : SourceFile) (hset : f.config.namespacePrefix = some part)
    (hblank : isBlankText part = false) (hsupports : f.supports file.path = true)
    (hcandidate : isCandidate (.ofSource file.source) target = true) :
    f.fixFile file target = .ok none ↔
      namespaceDecl? (tokenize file.source) = none ∨ missingNames (tokenize file.source) = [] := by
  have hnil := inserted_eq_nil_iff part (.ofSource file.source)
  have hlegacy := (isCandidate_ofList_iff.1 hcandidate).1
  rw [fixFile_eq_ok file hset hblank hsupports hlegacy, Except.ok.injEq, Fixed.isChanged]
  show _ ↔ namespaceDecl? (TokenSeq.ofSource file.source).tokens = none ∨
    missingNames (TokenSeq.ofSource file.source).tokens = []
  rw [← hnil]
  split
  · next h => simpa using h
  · next h => simpa using h

/-- A file of a path or for a version that is passed over. -/
theorem fixFile_eq_of_passed (h : f.supports file.path = false ∨ target.isLegacy = false) :
    f.fixFile file target = .ok none := by
  rw [fixFile]
  dsimp only
  rcases h with h | h
  · rw [h]
    rfl
  · have hnot : isCandidate (.ofSource file.source) target = false := by
      rw [isCandidate, h]
      rfl
    rw [hnot]
    simp

/-- Without a prefix, or with a blank one, candidates are reported, and other files are passed
over. -/
theorem fixFile_eq_of_incomplete
    (hnone : ∀ part ∈ f.config.namespacePrefix, isBlankText part = true)
    (hsupports : f.supports file.path = true) :
    f.fixFile file target =
      if isCandidate (.ofSource file.source) target then .error (.missing prefixOption)
      else .ok none := by
  rw [fixFile, if_pos hsupports]
  dsimp only
  rw [fix_eq_error hnone]

end Fixer

/-- What fixing a file returns. Which versions are old is decided by their numbers, as far as these
fit a word of 32 bits. A file that is passed over for its path or its version has no new text. Any
other file has one exactly if a fix of its tokens puts in imports, and it is the text of the fixed
tokens. If the prefix is not set or blank, this is reported exactly for the files that may need
imports. -/
theorem Fixer.fixFile_spec (f : Fixer) (file : SourceFile) (target : Version) :
    (target.isLegacy = true ↔
      (target.major.toNat * 10000 + target.minor.toNat * 100 + target.release.toNat) % UInt32.size <
        70200) ∧
      (f.supports file.path = false ∨ target.isLegacy = false →
        f.fixFile file target = .ok none) ∧
      (f.supports file.path = true → target.isLegacy = true →
        (∀ part, f.config.namespacePrefix = some part → isBlankText part = false →
          ∃ r, f.fix (.ofSource file.source) = .ok r ∧
            (∀ text, f.fixFile file target = .ok (some text) ↔
              r.inserted ≠ [] ∧ text = r.tokens.source) ∧
            (f.fixFile file target = .ok none ↔ r.inserted = [])) ∧
        ((∀ part, f.config.namespacePrefix = some part → isBlankText part = true) →
          (f.fixFile file target = .error (.missing prefixOption) ↔
            MayNeedImports (tokenize file.source)) ∧
          (f.fixFile file target = .ok none ↔ ¬ MayNeedImports (tokenize file.source)))) := by
  refine ⟨Version.isLegacy_iff, fixFile_eq_of_passed, fun hsupports hlegacy => ⟨?_, ?_⟩⟩
  · intro part hset hblank
    refine ⟨_, fix_eq_ok hset hblank _, ?_⟩
    rw [fixFile_eq_ok file hset hblank hsupports hlegacy, Fixed.isChanged]
    cases hins : (fixTokens part (.ofSource file.source)).inserted with
    | nil => simp
    | cons n names => simp [eq_comm]
  · intro hnone
    have hcandidate : isCandidate (.ofSource file.source) target = true ↔
        MayNeedImports (tokenize file.source) := by
      rw [TokenSeq.ofSource, isCandidate_ofList_iff, and_iff_right hlegacy]
    rw [fixFile_eq_of_incomplete hnone hsupports, ← hcandidate]
    split
    · next h => simp [h]
    · next h => simp [h]

/-- A file that lacks an import, fixed with a prefix and without one, for an old version, for a new
one, and for one whose number wraps around. -/
theorem Fixer.fixFile_spec_lacking :
    Fixer.fixFile { config := ⟨some "P"⟩ } ⟨"a.php", "<?php namespace A;new B;"⟩ ⟨7, 1, 0⟩ =
        .ok (some "<?php namespace A;\nuse A\\B;new B;") ∧
      Fixer.fixFile {} ⟨"a.php", "<?php namespace A;new B;"⟩ ⟨7, 1, 0⟩ =
        .error (.missing prefixOption) ∧
      Fixer.fixFile {} ⟨"a.php", "<?php namespace A;new B;"⟩ ⟨8, 1, 0⟩ = .ok none ∧
      Fixer.fixFile {} ⟨"a.php", "<?php namespace A;new B;"⟩ ⟨429497, 0, 0⟩ =
        .error (.missing prefixOption) := by
  have hts : tokenize "<?php namespace A;new B;" =
      [⟨.openTag, "<?php"⟩, ⟨.whitespace, " "⟩, ⟨.keyword .namespaceKw, "namespace"⟩,
        ⟨.whitespace, " "⟩, ⟨.identifier, "A"⟩, ⟨.semicolon, ";"⟩, ⟨.keyword .newKw, "new"⟩,
        ⟨.whitespace, " "⟩, ⟨.identifier, "B"⟩, ⟨.semicolon, ";"⟩] := by
    decide +kernel
  have hneeds : MayNeedImports (tokenize "<?php namespace A;new B;") := by
    rw [hts]
    exact ⟨by simp, by simp⟩
  refine ⟨?_, ?_, ?_, ?_⟩
  · obtain ⟨hold, -, hfile⟩ := Fixer.fixFile_spec { config := ⟨some "P"⟩ }
      ⟨"a.php", "<?php namespace A;new B;"⟩ ⟨7, 1, 0⟩
    obtain ⟨r, hr, htext, -⟩ := (hfile rfl (hold.2 (by decide))).1 "P" rfl (by decide)
    rw [Fixer.fix_eq_ok rfl (show isBlankText "P" = false by decide), TokenSeq.ofSource, hts,
      Except.ok.injEq] at hr
    subst hr
    exact (htext _).2 (by decide)
  · obtain ⟨hold, -, hfile⟩ := Fixer.fixFile_spec {} ⟨"a.php", "<?php namespace A;new B;"⟩ ⟨7, 1, 0⟩
    exact ((hfile rfl (hold.2 (by decide))).2 nofun).1.2 hneeds
  · obtain ⟨-, hpassed, -⟩ := Fixer.fixFile_spec {} ⟨"a.php", "<?php namespace A;new B;"⟩ ⟨8, 1, 0⟩
    exact hpassed (.inr (by decide))
  · obtain ⟨hold, -, hfile⟩ :=
      Fixer.fixFile_spec {} ⟨"a.php", "<?php namespace A;new B;"⟩ ⟨429497, 0, 0⟩
    exact ((hfile rfl (hold.2 (by decide))).2 nofun).1.2 hneeds

end PhpImports
