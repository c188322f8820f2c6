import PhpImports.Proofs.Lexing.Cover
import PhpImports.Proofs.Token.Navigation

/-!
# PhpImports — where a reserved word is a name

Whether a reserved word is a name is decided by two facts that are carried from token to token.
This module says that they are what a look back over the tokens would find, however far it has to
go: over trivia, over ampersands, and from one stretch of code into another. The look is at the
resolved tokens, so that a `function` which is a name itself is not followed by another name.

## Results

* `EndsIn`, `EndsInFunction`, `NameExpected` — the look back.
* `Preceding.last_seen_eq_iff`, `Preceding.function_seen_iff` — the two facts that are carried.
* `tokenize_nameExpected` — the kind of every token of a source.
-/

namespace PhpImports

-- ---------------------------------------------------------------------------
-- Looking back
-- ---------------------------------------------------------------------------

/-- The last token that is not trivia is of kind `k`. -/
def EndsIn (ts : List Token) (k : Kind) : Prop :=
  ∃ t, (meaningful ts).getLast? = some t ∧ t.kind = k

/-- The last tokens that are not trivia are a `function` and any number of ampersands. -/
def EndsInFunction (ts : List Token) : Prop :=
  ∃ us f amps, meaningful ts = us ++ f :: amps ∧ f.kind = .keyword .functionKw ∧
    ∀ a ∈ amps, a.kind = .ampersand

/-- Behind these tokens the reserved word `w` is a name. -/
def NameExpected (ts : List Token) (w : Keyword) : Prop :=
  EndsIn ts .objectOperator ∨ EndsIn ts .nullsafeObjectOperator ∨
    (EndsIn ts .doubleColon ∧ w ≠ .classKw) ∨ EndsInFunction ts

section Last

variable {ts : List Token} {t : Token}

theorem EndsIn.unique {j k : Kind} (hj : EndsIn ts j) (hk : EndsIn ts k) : j = k := by
  obtain ⟨t, ht, rfl⟩ := hj
  obtain ⟨u, hu, rfl⟩ := hk
  rw [Option.some.inj (ht.symm.trans hu)]

theorem meaningful_concat_of_trivia (ht : t.kind.isTrivia = true) :
    meaningful (ts ++ [t]) = meaningful ts := by
  have hnot : ¬ t.isMeaningful = true := by simp [Token.isMeaningful, Kind.isMeaningful, ht]
  rw [meaningful_append, meaningful_cons_of_neg hnot]
  exact List.append_nil _

theorem meaningful_concat (ht : t.kind.isTrivia = false) :
    meaningful (ts ++ [t]) = meaningful ts ++ [t] := by
  have hmeaningful : t.isMeaningful = true := by simp [Token.isMeaningful, Kind.isMeaningful, ht]
  rw [meaningful_append, meaningful_cons_of_pos hmeaningful]
  rfl

theorem endsIn_concat_iff (ht : t.kind.isTrivia = false) {k : Kind} :
    EndsIn (ts ++ [t]) k ↔ t.kind = k := by
  rw [EndsIn, meaningful_concat ht, List.getLast?_concat]
  simp

theorem endsInFunction_concat_iff (ht : t.kind.isTrivia = false) :
    EndsInFunction (ts ++ [t]) ↔
      t.kind = .keyword .functionKw ∨ t.kind = .ampersand ∧ EndsInFunction ts := by
  rw [EndsInFunction, meaningful_concat ht]
  constructor
  · rintro ⟨us, f, amps, heq, hf, hamps⟩
    rcases List.eq_nil_or_concat' amps with rfl | ⟨amps, a, rfl⟩
    · obtain ⟨-, hlast⟩ := List.append_inj' heq rfl
      cases hlast
      exact .inl hf
    · rw [← List.cons_append, ← List.append_assoc] at heq
      obtain ⟨hfront, hlast⟩ := List.append_inj' heq rfl
      cases hlast
      refine .inr ⟨hamps t (by simp), us, f, amps, hfront, hf, ?_⟩
      exact fun a ha => hamps a (List.mem_append_left _ ha)
  · rintro (hf | ⟨ha, us, f, amps, heq, hf, hamps⟩)
    · exact ⟨meaningful ts, t, [], rfl, hf, nofun⟩
    · refine ⟨us, f, amps ++ [t], by simp [heq], hf, ?_⟩
      intro a hmem
      rcases List.mem_append.1 hmem with hmem | hmem
      · exact hamps a hmem
      · rw [List.mem_singleton.1 hmem]
        exact ha

/-- A `function` with its ampersands ends in one or the other. -/
theorem EndsInFunction.endsIn (h : EndsInFunction ts) :
    EndsIn ts (.keyword .functionKw) ∨ EndsIn ts .ampersand := by
  obtain ⟨us, f, amps, heq, hf, hamps⟩ := h
  rcases List.eq_nil_or_concat' amps with rfl | ⟨amps, a, rfl⟩
  · exact .inl ⟨f, by rw [heq, List.getLast?_concat], hf⟩
  · refine .inr ⟨a, ?_, hamps a (by simp)⟩
    rw [heq, ← List.cons_append, ← List.append_assoc, List.getLast?_concat]

end Last

-- ---------------------------------------------------------------------------
-- What is carried from token to token
-- ---------------------------------------------------------------------------

namespace Preceding

/-- What is known after resolved tokens. -/
def seen (ts : List Token) : Preceding :=
  ts.foldl (fun p t => p.push t.kind) {}

theorem seen_concat (ts : List Token) (t : Token) : seen (ts ++ [t]) = (seen ts).push t.kind := by
  rw [seen, List.foldl_concat, seen]

/-- What is carried over tokens is what is known after them, once they are resolved. -/
theorem past_eq_foldl (p : Preceding) (us : List Token) :
    p.past us = (resolveNamesAfter p us).foldl (fun p t => p.push t.kind) p := by
  induction us generalizing p with
  | nil => rfl
  | cons u us ih => exact ih _

/-- The last kind that is carried is the one that a look back finds. -/
theorem last_seen_eq_iff {ts : List Token} {k : Kind} : (seen ts).last = some k ↔ EndsIn ts k := by
  induction ts using List.reverseRecOn with
  | nil => simp [seen, EndsIn, meaningful]
  | append_singleton ts t ih =>
    rw [seen_concat, push]
    cases ht : t.kind.isTrivia with
    | true =>
      rw [if_pos rfl, ih, EndsIn, EndsIn, meaningful_concat_of_trivia ht]
    | false =>
      rw [if_neg (by simp), endsIn_concat_iff ht, Option.some.injEq]

/-- The `function` that is carried is one that a look back finds. -/
theorem function_seen_iff {ts : List Token} : (seen ts).function = true ↔ EndsInFunction ts := by
  induction ts using List.reverseRecOn with
  | nil => simp [seen, EndsInFunction, meaningful]
  | append_singleton ts t ih =>
    rw [seen_concat, push]
    cases ht : t.kind.isTrivia with
    | true =>
      rw [if_pos rfl, ih, EndsInFunction, EndsInFunction, meaningful_concat_of_trivia ht]
    | false =>
      rw [if_neg (by simp), endsInFunction_concat_iff ht, ← ih]
      simp

/-- A name is expected exactly where the look back says so. -/
theorem expectsName_seen_iff {ts : List Token} {w : Keyword} :
    (seen ts).expectsName w = true ↔ NameExpected ts w := by
  unfold expectsName
  split
  · next hlast =>
    have hcolon : EndsIn ts .doubleColon := last_seen_eq_iff.1 hlast
    rw [decide_eq_true_eq]
    constructor
    · intro hw
      exact .inr (.inr (.inl ⟨hcolon, hw⟩))
    · rintro (h | h | ⟨-, hw⟩ | h)
      · exact absurd (hcolon.unique h) (by simp)
      · exact absurd (hcolon.unique h) (by simp)
      · exact hw
      · rcases h.endsIn with h | h <;> exact absurd (hcolon.unique h) (by simp)
  · next hlast => exact iff_of_true rfl (.inl (last_seen_eq_iff.1 hlast))
  · next hlast => exact iff_of_true rfl (.inr (.inl (last_seen_eq_iff.1 hlast)))
  · next hcolon harrow hnullsafe =>
    rw [function_seen_iff]
    constructor
    · intro h
      exact .inr (.inr (.inr h))
    · rintro (h | h | ⟨h, -⟩ | h)
      · exact absurd (last_seen_eq_iff.2 h) harrow
      · exact absurd (last_seen_eq_iff.2 h) hnullsafe
      · exact absurd (last_seen_eq_iff.2 h) hcolon
      · exact h

end Preceding

-- ---------------------------------------------------------------------------
-- The tokens of a source
-- ---------------------------------------------------------------------------

/-- A token has the kind that the rules give it, except for the reserved words where a name is
expected by the tokens before them: these are identifiers. -/
theorem tokenize_nameExpected {source : String} {before after : List Token} {t : Token}
    (h : tokenize source = before ++ t :: after) :
    ∃ k, (lexemes source.toList)[before.length]? = some ⟨k, t.text⟩ ∧
      (∀ w, k = .keyword w →
        (t.kind = .identifier ↔ NameExpected before w) ∧
          (¬ NameExpected before w → t.kind = .keyword w)) ∧
      ((∀ w, k ≠ .keyword w) → t.kind = k) := by
  obtain ⟨us, u, vs, hlexemes, rfl, rfl, -⟩ := exists_of_resolveNamesAfter_eq h
  have hseen : Preceding.past {} us = .seen (resolveNamesAfter {} us) :=
    Preceding.past_eq_foldl {} us
  refine ⟨u.kind, ?_, ?_, ?_⟩
  · have hlength : (resolveNamesAfter {} us).length = us.length := by
      simpa using congrArg List.length (map_text_resolveNamesAfter {} us)
    rw [hlength, hlexemes]
    simp
  · intro w hw
    dsimp only
    rw [hw, Preceding.resolve, hseen, ← Preceding.expectsName_seen_iff]
    split
    · next hname => simp [hname]
    · next hname => simp [hname]
  · intro hne
    dsimp only
    cases hk : u.kind with
    | keyword w => exact absurd hk (hne w)
    | _ => rfl

/-- Tokens with a `function` that is a name, before a reserved word that is none, and one that is
not, before an ampersand and a comment. -/
def twoFunctions : List Token :=
  [⟨.openTag, "<?php"⟩, ⟨.whitespace, " "⟩, ⟨.variable, "$a"⟩, ⟨.objectOperator, "->"⟩,
    ⟨.identifier, "function"⟩, ⟨.whitespace, " "⟩, ⟨.keyword .newKw, "new"⟩, ⟨.semicolon, ";"⟩,
    ⟨.keyword .functionKw, "function"⟩, ⟨.whitespace, " "⟩, ⟨.ampersand, "&"⟩,
    ⟨.blockComment, "/**/"⟩]

theorem tokenize_nameExpected_twoFunctions :
    tokenize "<?php $a->function new;function &/**/new" =
        twoFunctions ++ ⟨.identifier, "new"⟩ :: [] ∧
      NameExpected twoFunctions .newKw := by
  have htokens : tokenize "<?php $a->function new;function &/**/new" =
      twoFunctions ++ ⟨.identifier, "new"⟩ :: [] := by
    decide +kernel
  have hlexeme : (lexemes "<?php $a->function new;function &/**/new".toList)[12]? =
      some ⟨.keyword .newKw, "new"⟩ := by
    decide +kernel
  obtain ⟨k, hk, hname, -⟩ := tokenize_nameExpected htokens
  have hnew : k = .keyword .newKw := congrArg Token.kind (Option.some.inj (hk.symm.trans hlexeme))
  exact ⟨htokens, (hname .newKw hnew).1.1 rfl⟩

end PhpImports
