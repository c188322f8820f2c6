import PhpImports.Proofs.Lexing.Edge
import PhpImports.Proofs.Names.UsedAt

/-!
# PhpImports — used names and the characters around them

A character outside ASCII belongs to the label that it stands in, as the search for the end of a
heredoc has it. Names are read in ASCII all the same, so that of a label with such a character
only a part may be left as a name. Where such a part is used, the character stands before it:
what comes behind a used name always begins in ASCII. And it is the end of an error or of a
reserved word, which `new` and the colon before a result are not.

## Results

* `TokenSeq.IsWholeAt`            — no character outside ASCII stands next to the token.
* `TokenSeq.UsedAt.isWholeAt_iff` — which uses of a name are whole.
* `usedNames_whole`               — when every used name of a source is whole somewhere.
-/

namespace PhpImports

namespace TokenSeq

variable {s : TokenSeq} {k : Nat}

/-- The characters directly before and behind the token at position `k`, as far as there are any,
are in ASCII. -/
def IsWholeAt (s : TokenSeq) (k : Nat) : Prop :=
  (∀ c ∈ (textOf (s.tokens.take k)).getLast?, c.toNat < 128) ∧
    ∀ c ∈ (textOf (s.tokens.drop (k + 1))).head?, c.toNat < 128

/-- The token directly before position `k` ends outside ASCII. -/
def IsCutAt (s : TokenSeq) (k : Nat) : Prop :=
  ∃ u, (s.tokens.take k).getLast? = some u ∧ u.EndsOutside

/-- The kinds that may follow a used name. -/
def usageEnds : List Kind :=
  [.lParen, .semicolon, .doubleColon, .variable, .pipe, .lBrace]

theorem UsedAt.exists_usageEnd (h : s.UsedAt k) : ∃ e ∈ usageEnds, s.kindAfter? k = some e := by
  cases h with
  | instantiated _ hafter =>
    rcases hafter with hafter | hafter
    · exact ⟨_, by simp [usageEnds], hafter⟩
    · exact ⟨_, by simp [usageEnds], hafter⟩
  | accessed _ hafter => exact ⟨_, by simp [usageEnds], hafter⟩
  | caught _ _ _ _ _ _ hafter =>
    rcases hafter with hafter | hafter
    · exact ⟨_, by simp [usageEnds], hafter⟩
    · exact ⟨_, by simp [usageEnds], hafter⟩
  | hinted _ _ v _ _ _ _ hnext hkind =>
    refine ⟨.variable, by simp [usageEnds], ?_⟩
    rw [kindAfter?, hnext]
    exact hkind
  | returned _ _ _ hresult =>
    obtain ⟨_, _, _, _, hafter⟩ := hresult
    rcases hafter with hafter | hafter
    · exact ⟨_, by simp [usageEnds], hafter⟩
    · exact ⟨_, by simp [usageEnds], hafter⟩

theorem exists_head_of_kindAfter? {e : Kind} (h : s.kindAfter? k = some e) :
    ∃ v vs, s.tokens.drop (k + 1) = v :: vs ∧ (v.kind.isTrivia = true ∨ v.kind = e) := by
  rw [kindAfter?_eq] at h
  cases hdrop : s.tokens.drop (k + 1) with
  | nil =>
    rw [hdrop] at h
    simp [meaningful] at h
  | cons v vs =>
    refine ⟨v, vs, rfl, ?_⟩
    rw [hdrop] at h
    by_cases hv : v.isMeaningful = true
    · rw [meaningful_cons_of_pos hv] at h
      exact .inr (Option.some.inj h)
    · left
      simpa [Token.isMeaningful, Kind.isMeaningful] using hv

theorem kindBefore?_of_getLast? {u : Token} (h : (s.tokens.take k).getLast? = some u)
    (hu : u.isMeaningful = true) : s.kindBefore? k = some u.kind := by
  obtain ⟨us, hus⟩ := List.getLast?_eq_some_iff.1 h
  rw [kindBefore?_eq, hus, meaningful_append]
  simp [meaningful, hu]

/-- What ends outside ASCII is no trivia, and neither `new` nor a colon. -/
theorem kindBefore?_of_isCutAt (h : s.IsCutAt k) :
    s.kindBefore? k ≠ some (.keyword .newKw) ∧ s.kindBefore? k ≠ some .colon := by
  obtain ⟨u, hlast, -, hkind⟩ := h
  rcases hkind with herror | ⟨w, hw, hword | hname, -⟩
  · rw [kindBefore?_of_getLast? hlast (by rw [Token.isMeaningful, herror]; rfl), herror]
    simp
  · rw [kindBefore?_of_getLast? hlast (by rw [Token.isMeaningful, hword]; rfl), hword]
    refine ⟨?_, by simp⟩
    intro hnew
    rw [Option.some.injEq, Kind.keyword.injEq] at hnew
    rw [hnew] at hw
    exact absurd hw (by decide)
  · rw [kindBefore?_of_getLast? hlast (by rw [Token.isMeaningful, hname]; rfl), hname]
    simp

end TokenSeq

section Source

variable {source : String} {k : Nat} {n : String}

/-- Behind a used name the text goes on in ASCII. -/
theorem toNat_lt_behind (h : (TokenSeq.ofSource source).UsedAt k) {c : Char}
    (hc : (textOf ((TokenSeq.ofSource source).tokens.drop (k + 1))).head? = some c) :
    c.toNat < 128 := by
  obtain ⟨e, he, hafter⟩ := h.exists_usageEnd
  obtain ⟨v, vs, hdrop, hkind⟩ := TokenSeq.exists_head_of_kindAfter? hafter
  have hends : v.kind.isTrivia = true ∨ v.kind ∈ TokenSeq.usageEnds := by
    refine hkind.imp_right fun hv => ?_
    rw [hv]
    exact he
  have hcut : tokenize source = (tokenize source).take (k + 1) ++ v :: vs := by
    rw [← hdrop]
    exact (List.take_append_drop _ _).symm
  rw [hdrop] at hc
  by_contra hout
  rcases kind_of_first hcut (Nat.le_of_not_lt hout) hc with hv | hv | hv | ⟨w, hv⟩
  all_goals
    rw [hv] at hends
    simp [Kind.isTrivia, TokenSeq.usageEnds] at hends

/-- The text before a name ends outside ASCII exactly if the token before it does. -/
theorem outside_before_iff {before after : List Token} {t : Token}
    (h : tokenize source = before ++ t :: after) (ht : t.kind = .identifier) :
    (∃ c ∈ (textOf before).getLast?, 128 ≤ c.toNat) ↔
      ∃ u, before.getLast? = some u ∧ u.EndsOutside := by
  rcases List.eq_nil_or_concat' before with rfl | ⟨us, u, rfl⟩
  · simp [textOf]
  · have hcut : tokenize source = us ++ u :: t :: after := by simpa using h
    have hne : u.text.toList ≠ [] := by
      have hmem : u ∈ tokenize source := by
        rw [hcut]
        simp
      simpa using text_ne_empty_of_mem_tokenize hmem
    have hlast : (textOf (us ++ [u])).getLast? = u.text.toList.getLast? := by
      have htext : textOf (us ++ [u]) = textOf us ++ u.text.toList := by simp [textOf]
      rw [htext, List.getLast?_append_of_ne_nil _ hne]
    rw [hlast, List.getLast?_concat]
    constructor
    · intro ⟨c, hc, hout⟩
      exact ⟨u, rfl, endsOutside_of_last hcut ht hout hc⟩
    · intro ⟨v, hv, hends⟩
      obtain ⟨c, hc, hout⟩ := hends.1
      rw [Option.some.inj hv]
      exact ⟨c, hc, hout⟩

/-- A used name is whole unless the token before it ends outside ASCII. -/
theorem TokenSeq.UsedAt.isWholeAt_iff (h : (TokenSeq.ofSource source).UsedAt k)
    (hget : (TokenSeq.ofSource source).tokens[k]? = some ⟨.identifier, n⟩) :
    (TokenSeq.ofSource source).IsWholeAt k ↔ ¬ (TokenSeq.ofSource source).IsCutAt k := by
  obtain ⟨pre, post, htokens, hlength⟩ := exists_cut hget
  have htake : (TokenSeq.ofSource source).tokens.take k = pre := by
    rw [htokens, ← hlength, List.take_left]
  rw [TokenSeq.IsCutAt, htake, ← outside_before_iff htokens rfl, TokenSeq.IsWholeAt, htake]
  constructor
  · intro hwhole ⟨c, hc, hout⟩
    have hlt := hwhole.1 c hc
    omega
  · intro hnone
    refine ⟨?_, fun c hc => toNat_lt_behind h hc⟩
    intro c hc
    by_contra hout
    exact hnone ⟨c, hc, Nat.le_of_not_lt hout⟩

end Source

/-- A used name has characters in ASCII around it, unless the token directly before it is an error
or a reserved word that ends outside ASCII; behind `new`, and behind the colon before a result,
there is no such token. So every used name of a source is whole somewhere if and only if it is
used somewhere else than behind such a token. -/
theorem usedNames_whole (source : String) :
    (∀ k n, (TokenSeq.ofSource source).tokens[k]? = some ⟨.identifier, n⟩ →
      (TokenSeq.ofSource source).UsedAt k →
        ((TokenSeq.ofSource source).IsWholeAt k ↔ ¬ (TokenSeq.ofSource source).IsCutAt k) ∧
        ((TokenSeq.ofSource source).kindBefore? k = some (.keyword .newKw) ∨
          (TokenSeq.ofSource source).kindBefore? k = some .colon →
            (TokenSeq.ofSource source).IsWholeAt k)) ∧
    ((∀ n ∈ usedNames (TokenSeq.ofSource source).tokens, ∃ k,
        (TokenSeq.ofSource source).tokens[k]? = some ⟨.identifier, n⟩ ∧
          (TokenSeq.ofSource source).UsedAt k ∧ (TokenSeq.ofSource source).IsWholeAt k) ↔
      ∀ n ∈ usedNames (TokenSeq.ofSource source).tokens, ∃ k,
        (TokenSeq.ofSource source).tokens[k]? = some ⟨.identifier, n⟩ ∧
          (TokenSeq.ofSource source).UsedAt k ∧ ¬ (TokenSeq.ofSource source).IsCutAt k) := by
  refine ⟨?_, ?_⟩
  · intro k n hget hused
    refine ⟨hused.isWholeAt_iff hget, ?_⟩
    intro hbefore
    rw [hused.isWholeAt_iff hget]
    intro hcut
    obtain ⟨hnew, hcolon⟩ := TokenSeq.kindBefore?_of_isCutAt hcut
    rcases hbefore with hbefore | hbefore
    · exact hnew hbefore
    · exact hcolon hbefore
  · refine forall₂_congr fun n _ => exists_congr fun k => ?_
    refine and_congr_right fun hget => and_congr_right fun hused => ?_
    exact hused.isWholeAt_iff hget

/-- A stray character before a blank does not cut the name behind the blank. -/
theorem usedNames_whole_apart :
    (TokenSeq.ofSource "<?php É A::b();").UsedAt 4 ∧
      (TokenSeq.ofSource "<?php É A::b();").IsWholeAt 4 := by
  have htokens : tokenize "<?php É A::b();" =
      [⟨.openTag, "<?php"⟩, ⟨.whitespace, " "⟩, ⟨.error, "É"⟩, ⟨.whitespace, " "⟩,
        ⟨.identifier, "A"⟩, ⟨.doubleColon, "::"⟩, ⟨.identifier, "b"⟩, ⟨.lParen, "("⟩,
        ⟨.rParen, ")"⟩, ⟨.semicolon, ";"⟩] := by
    decide +kernel
  have hget : (TokenSeq.ofSource "<?php É A::b();").tokens[4]? = some ⟨.identifier, "A"⟩ := by
    rw [TokenSeq.ofSource, TokenSeq.tokens_ofList, htokens]
    rfl
  have hused : (TokenSeq.ofSource "<?php É A::b();").UsedAt 4 := by
    rw [TokenSeq.ofSource, htokens]
    exact .accessed (by decide) (by decide)
  refine ⟨hused, (((usedNames_whole _).1 4 "A" hget hused).1).2 ?_⟩
  rw [TokenSeq.ofSource, htokens]
  rintro ⟨u, hu, -, hkind⟩
  cases hu
  simp at hkind

/-- Of a variable with a character outside ASCII in it, the rest is used as if it were a class. -/
theorem usedNames_not_whole :
    usedNames (TokenSeq.ofSource "<?php $Éa::b();").tokens = ["a"] ∧
      ¬ ∀ n ∈ usedNames (TokenSeq.ofSource "<?php $Éa::b();").tokens, ∃ k,
        (TokenSeq.ofSource "<?php $Éa::b();").tokens[k]? = some ⟨.identifier, n⟩ ∧
          (TokenSeq.ofSource "<?php $Éa::b();").UsedAt k ∧
            (TokenSeq.ofSource "<?php $Éa::b();").IsWholeAt k := by
  have htokens : tokenize "<?php $Éa::b();" =
      [⟨.openTag, "<?php"⟩, ⟨.whitespace, " "⟩, ⟨.dollar, "$"⟩, ⟨.error, "É"⟩,
        ⟨.identifier, "a"⟩, ⟨.doubleColon, "::"⟩, ⟨.identifier, "b"⟩, ⟨.lParen, "("⟩,
        ⟨.rParen, ")"⟩, ⟨.semicolon, ";"⟩] := by
    decide +kernel
  have hused : usedNames (TokenSeq.ofSource "<?php $Éa::b();").tokens = ["a"] := by
    rw [TokenSeq.ofSource, TokenSeq.tokens_ofList, htokens]
    decide +kernel
  refine ⟨hused, ?_⟩
  intro hwhole
  obtain ⟨k, hget, -, hbefore, -⟩ := hwhole "a" (by rw [hused]; simp)
  rw [TokenSeq.ofSource, TokenSeq.tokens_ofList, htokens] at hget hbefore
  have hlt : k < 10 := (List.getElem?_eq_some_iff.1 hget).1
  obtain rfl : k = 4 := by
    interval_cases k <;> simp at hget ⊢
  exact absurd (hbefore 'É' (by decide)) (by decide)

end PhpImports
