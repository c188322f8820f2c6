import PhpImports.Token.Sequence

/-!
# PhpImports — the tally counts the tokens

Tokens are counted one by one, so the count of a kind is the number of the tokens of
this kind, in whatever order they were counted. The questions that are put to the tally
are questions about the tokens, and a sequence into which tokens were put has the tally of
all its tokens.

## Results

* `KindTally.getD_addAll`         — the counts after a list of tokens.
* `TokenSeq.hasKind_ofList_iff`   — what it means that a kind is present.
* `TokenSeq.hasAnyKind_ofList_iff` — the same for one of several kinds.
* `KindTally.addAll_perm`         — the order of counting does not matter.
* `TokenSeq.splice_ofList`        — tokens put into a sequence.
-/

namespace PhpImports

namespace KindTally

/-- One more token raises the count of its own kind, and no other. -/
theorem getD_add (m : KindTally) (j k : Kind) :
    (m.add j)[k]?.getD 0 = m[k]?.getD 0 + if j = k then 1 else 0 := by
  rw [getElem?_add]
  split
  · next h =>
    subst h
    rfl
  · rfl

theorem getD_addAll (m : KindTally) (ts : List Token) (k : Kind) :
    (m.addAll ts)[k]?.getD 0 = m[k]?.getD 0 + ts.countP (·.kind = k) := by
  induction ts generalizing m with
  | nil => rfl
  | cons t ts ih =>
    have hstep : m.addAll (t :: ts) = (m.add t.kind).addAll ts := rfl
    rw [hstep, ih, getD_add, List.countP_cons]
    by_cases h : t.kind = k
    · simp only [h, if_true, decide_true]
      omega
    · simp [h]

theorem add_comm (m : KindTally) (j k : Kind) : (m.add j).add k = (m.add k).add j := by
  apply Std.ExtTreeMap.ext_getElem?
  intro l
  simp only [getElem?_add]
  by_cases hjk : j = k
  · rw [hjk]
  · have hkj : k ≠ j := fun h => hjk h.symm
    grind

/-- The order in which tokens are counted does not matter. -/
theorem addAll_perm (m : KindTally) {ts us : List Token} (h : ts.Perm us) :
    m.addAll ts = m.addAll us :=
  h.foldl_eq' (fun t _ u _ m => add_comm m t.kind u.kind) m

end KindTally

namespace TokenSeq

theorem hasKind_ofList_iff {ts : List Token} {k : Kind} :
    (ofList ts).hasKind k = true ↔ ∃ t ∈ ts, t.kind = k := by
  have hcount : (KindTally.addAll ∅ ts)[k]?.getD 0 = ts.countP (·.kind = k) := by
    rw [KindTally.getD_addAll]
    simp
  have hany : ∀ o : Option Nat, o.any (0 < ·) = true ↔ 0 < o.getD 0 := by
    intro o
    cases o <;> simp
  rw [hasKind, hany]
  show 0 < (KindTally.addAll ∅ ts)[k]?.getD 0 ↔ _
  rw [hcount, List.countP_pos_iff]
  simp

theorem hasAnyKind_ofList_iff {ts : List Token} {ks : List Kind} :
    (ofList ts).hasAnyKind ks = true ↔ ∃ t ∈ ts, t.kind ∈ ks := by
  rw [hasAnyKind, List.any_eq_true]
  constructor
  · rintro ⟨k, hk, hkind⟩
    obtain ⟨t, ht, rfl⟩ := hasKind_ofList_iff.1 hkind
    exact ⟨t, ht, hk⟩
  · rintro ⟨t, ht, hmem⟩
    exact ⟨t.kind, hmem, hasKind_ofList_iff.2 ⟨t, ht, rfl⟩⟩

/-- A sequence into which a block was put is the sequence of all its tokens. -/
theorem splice_ofList (ts : List Token) (i : Nat) (block : List Token) :
    (ofList ts).splice i block = ofList (ts.take i ++ block ++ ts.drop i) := by
  have hperm : (ts ++ block).Perm (ts.take i ++ block ++ ts.drop i) := by
    have hswap : (ts.take i ++ (ts.drop i ++ block)).Perm (ts.take i ++ (block ++ ts.drop i)) :=
      List.perm_append_comm.append_left _
    rwa [← List.append_assoc, List.take_append_drop, ← List.append_assoc] at hswap
  rw [splice, ofList, ofList, ← KindTally.addAll_append, KindTally.addAll_perm ∅ hperm]

end TokenSeq

end PhpImports
