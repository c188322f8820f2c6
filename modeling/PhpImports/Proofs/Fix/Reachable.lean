import PhpImports.Proofs.Fix.Outcome
import PhpImports.Proofs.Token.Tally

/-!
# PhpImports — the tally after any history

A token sequence carries a tally of its kinds, which is made with the sequence and brought up
to date whenever tokens are put in. Two facts are carried along: each count is the number of
tokens of its kind, and no count is zero. A tally with these two facts is determined by the
tokens, so that the questions that are put to it are questions about the tokens, and the
history of a sequence leaves no trace in it.

## Results

* `TokenSeq.Reachable`            — the sequences that can be made.
* `TokenSeq.IsTallied`            — the two facts.
* `TokenSeq.IsTallied.splice`, `TokenSeq.IsTallied.fix` — what one step preserves.
* `TokenSeq.Reachable.isTallied`  — what every history preserves.
* `TokenSeq.tally_of_reachable`   — counts, questions and equality of such sequences.
-/

namespace PhpImports

namespace TokenSeq

/-- The sequences that can be made: from a source or from given tokens, by putting tokens in at
any place, and by fixes. -/
inductive Reachable : TokenSeq → Prop
  | ofSource (source : String) : Reachable (ofSource source)
  | ofList (ts : List Token) : Reachable (ofList ts)
  | insertAt {s : TokenSeq} (i : Nat) (t : Token) : Reachable s → Reachable (s.insertAt i t)
  | fix {s : TokenSeq} {r : Fixed} (f : Fixer) : Reachable s → f.fix s = .ok r →
      Reachable r.tokens

/-- The tally counts the tokens of each kind, and has no entry for a kind that does not occur. -/
structure IsTallied (s : TokenSeq) : Prop where
  count : ∀ k, s.tally[k]?.getD 0 = s.tokens.countP (·.kind = k)
  ne_zero : ∀ k : Kind, s.tally[k]? ≠ some 0

end TokenSeq

-- ---------------------------------------------------------------------------
-- Counting
-- ---------------------------------------------------------------------------

namespace KindTally

/-- Counting makes no entry that is zero. -/
theorem addAll_ne_zero {m : KindTally} (hm : ∀ k : Kind, m[k]? ≠ some 0) (ts : List Token)
    (k : Kind) : (m.addAll ts)[k]? ≠ some 0 := by
  induction ts generalizing m with
  | nil => exact hm k
  | cons t ts ih =>
    show ((m.add t.kind).addAll ts)[k]? ≠ some 0
    apply ih
    intro j
    rw [getElem?_add]
    split
    · simp
    · exact hm j

/-- Tallies with the same counts are the same if no entry is zero. -/
theorem ext_getD {m m' : KindTally} (hm : ∀ k : Kind, m[k]? ≠ some 0)
    (hm' : ∀ k : Kind, m'[k]? ≠ some 0) (h : ∀ k : Kind, m[k]?.getD 0 = m'[k]?.getD 0) :
    m = m' := by
  apply Std.ExtTreeMap.ext_getElem?
  intro k
  have hzero := hm k
  have hzero' := hm' k
  have hcount := h k
  cases hk : m[k]? with
  | none =>
    rw [hk] at hcount
    cases hk' : m'[k]? with
    | none => rfl
    | some n =>
      rw [hk'] at hcount hzero'
      exact absurd (congrArg some hcount.symm) hzero'
  | some n =>
    rw [hk] at hcount hzero
    cases hk' : m'[k]? with
    | none =>
      rw [hk'] at hcount
      exact absurd (congrArg some hcount) hzero
    | some n' =>
      rw [hk'] at hcount
      exact congrArg some hcount

end KindTally

-- ---------------------------------------------------------------------------
-- One step, and any number of them
-- ---------------------------------------------------------------------------

namespace TokenSeq

theorem isTallied_ofList (ts : List Token) : (ofList ts).IsTallied := by
  constructor
  · intro k
    show (KindTally.addAll ∅ ts)[k]?.getD 0 = ts.countP (·.kind = k)
    rw [KindTally.getD_addAll]
    simp
  · exact KindTally.addAll_ne_zero (by simp) ts

namespace IsTallied

variable {s u : TokenSeq}

/-- A block that is put in, at whatever place, is counted. -/
theorem splice (h : s.IsTallied) (i : Nat) (block : List Token) : (s.splice i block).IsTallied := by
  constructor
  · intro k
    have hcut : s.tokens.countP (·.kind = k) =
        (s.tokens.take i).countP (·.kind = k) + (s.tokens.drop i).countP (·.kind = k) := by
      rw [← List.countP_append, List.take_append_drop]
    show (s.tally.addAll block)[k]?.getD 0 = _
    rw [KindTally.getD_addAll, h.count, tokens_splice, List.countP_append, List.countP_append,
      hcut]
    omega
  · exact KindTally.addAll_ne_zero h.ne_zero block

/-- A fix leaves the sequence as it is or puts one block in. -/
theorem fix (h : s.IsTallied) {f : Fixer} {r : Fixed} (hfix : f.fix s = .ok r) :
    r.tokens.IsTallied := by
  rw [Fixer.fix_eq] at hfix
  split at hfix
  · next part hpart =>
    rw [Except.ok.injEq] at hfix
    subst hfix
    unfold fixTokens
    dsimp only
    split
    · exact h
    · split
      · exact h
      · rw [TokenSeq.addImports_eq_splice]
        exact h.splice _ _
  · simp at hfix

/-- The tally is that of the tokens, counted from the beginning. -/
theorem eq_ofList (h : s.IsTallied) : s = ofList s.tokens := by
  have hlist := isTallied_ofList s.tokens
  have htally : s.tally = (ofList s.tokens).tally := by
    apply KindTally.ext_getD h.ne_zero hlist.ne_zero
    intro k
    rw [h.count, hlist.count, tokens_ofList]
  show s = ⟨s.tokens, (ofList s.tokens).tally⟩
  rw [← htally]

/-- Sequences with the same tokens are the same. -/
theorem eq_iff (hs : s.IsTallied) (hu : u.IsTallied) : s = u ↔ s.tokens = u.tokens := by
  constructor
  · intro h
    rw [h]
  · intro h
    rw [hs.eq_ofList, hu.eq_ofList, h]

end IsTallied

/-- The tally never drifts, whatever the history of a sequence is. -/
theorem Reachable.isTallied {s : TokenSeq} (h : s.Reachable) : s.IsTallied := by
  induction h with
  | ofSource source => exact isTallied_ofList _
  | ofList ts => exact isTallied_ofList ts
  | insertAt i t _ ih => exact ih.splice i [t]
  | fix f _ hfix ih => exact ih.fix hfix

/-- For sequences with any history: the count of each kind is the number of its tokens, and no
count is zero; a kind is found exactly if one of the tokens has it; and two sequences are equal
exactly if their tokens are. -/
theorem tally_of_reachable {s u : TokenSeq} (hs : s.Reachable) (hu : u.Reachable) :
    (∀ k, s.tally[k]?.getD 0 = s.tokens.countP (·.kind = k) ∧ s.tally[k]? ≠ some 0) ∧
    (∀ k, s.hasKind k = true ↔ ∃ t ∈ s.tokens, t.kind = k) ∧
    (∀ ks, s.hasAnyKind ks = true ↔ ∃ t ∈ s.tokens, t.kind ∈ ks) ∧
    (s = u ↔ s.tokens = u.tokens) := by
  have htallied := hs.isTallied
  have hlist := htallied.eq_ofList
  refine ⟨fun k => ⟨htallied.count k, htallied.ne_zero k⟩, ?_, ?_, htallied.eq_iff hu.isTallied⟩
  · intro k
    rw [hlist, hasKind_ofList_iff, tokens_ofList]
  · intro ks
    rw [hlist, hasAnyKind_ofList_iff, tokens_ofList]

/-- A unit that is fixed before its last token is put in, far beyond the end, is the unit of all
its tokens. -/
theorem tally_of_reachable_fixedThenEnded :
    let unit := [⟨.keyword .namespaceKw, "namespace"⟩, ⟨.identifier, "A"⟩, ⟨.semicolon, ";"⟩,
      ⟨.identifier, "B"⟩, ⟨.doubleColon, "::"⟩, ⟨.identifier, "c"⟩]
    ∃ r, Fixer.fix { config := ⟨some "P"⟩ } (ofList unit) = .ok r ∧ r.inserted = ["B"] ∧
      r.tokens.insertAt 99 ⟨.semicolon, ";"⟩ =
        ofList (unit.take 3 ++ importStatement ["A"] "B" ++ unit.drop 3 ++ [⟨.semicolon, ";"⟩]) ∧
      (r.tokens.insertAt 99 ⟨.semicolon, ";"⟩).hasKind (.keyword .useKw) = true := by
  intro unit
  have hfix : Fixer.fix { config := ⟨some "P"⟩ } (ofList unit) =
      .ok (fixTokens "P" (ofList unit)) :=
    Fixer.fix_eq_ok rfl (by decide) _
  have hreach : ((fixTokens "P" (ofList unit)).tokens.insertAt 99 ⟨.semicolon, ";"⟩).Reachable :=
    .insertAt 99 _ (.fix _ (.ofList unit) hfix)
  obtain ⟨-, hkind, -, heq⟩ := tally_of_reachable hreach (.ofList _)
  exact ⟨_, hfix, by decide, heq.2 (by decide), (hkind _).2 (by decide)⟩

end TokenSeq

end PhpImports
