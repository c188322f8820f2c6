import Mathlib.Order.Nat
import PhpImports.Proofs.Token.Navigation

/-!
# PhpImports — blocks in their places

The end of a block is found by one pass with a depth of nesting. Here a block is described by its
positions in the sequence, and its end by counting alone: it is the first position behind the
opening bracket up to which as many brackets have been closed as opened. This is the first return
of the depth to zero, and until then the depth cannot fall below zero, since a token changes it by
one at most.

## Results

* `TokenSeq.exists_of_blockEnd?`, `TokenSeq.leadingBlock?_drop_iff` — a block as a cut of the
  sequence.
* `TokenSeq.blockEnd?_nested` — a block that opens inside another is closed inside it.
* `Bracket.nest?_eq_some_iff`, `Bracket.nestAll?_eq_some` — the depth is what is opened less what
  is closed.
* `length_closeBlock_iff` — the pass ends where the counts first agree.
* `TokenSeq.exists_depth` — up to there the depth never falls below zero.
* `TokenSeq.blockEnd?_isLeast_balanced` — the end of a block.
-/

namespace PhpImports

namespace TokenSeq

variable {s : TokenSeq}

-- ---------------------------------------------------------------------------
-- A block as a cut of the sequence
-- ---------------------------------------------------------------------------

/-- The tokens strictly between two positions. -/
def between (s : TokenSeq) (o c : Nat) : List Token :=
  (s.tokens.drop (o + 1)).take (c - (o + 1))

/-- The sequence cut at the brackets of a block. -/
theorem exists_of_blockEnd? {b : Bracket} {o c : Nat} (h : s.blockEnd? b o = some c) :
    ∃ pre t body u rest, s.tokens = pre ++ t :: (body ++ u :: rest) ∧ pre.length = o ∧
      c = o + 1 + body.length ∧ t.kind = b.opener ∧ u.kind = b.closer ∧
      leadingBlock? b (s.tokens.drop o) = some (body, rest) := by
  obtain ⟨⟨body, rest⟩, hblock, rfl⟩ := Option.map_eq_some_iff.1 h
  obtain ⟨t, u, us, ht, hu, hdrop, rfl, -⟩ := exists_of_leadingBlock? hblock
  have hlen := congrArg List.length hdrop
  rw [List.length_drop, List.length_cons] at hlen
  refine ⟨s.tokens.take o, t, body, u, rest, ?_, ?_, rfl, ht, hu, hblock⟩
  · rw [← hdrop, List.take_append_drop]
  · rw [List.length_take]
    omega

theorem kindAt?_of_blockEnd? {b : Bracket} {o c : Nat} (h : s.blockEnd? b o = some c) :
    s.kindAt? o = some b.opener ∧ s.kindAt? c = some b.closer := by
  obtain ⟨pre, t, body, u, rest, htokens, rfl, rfl, ht, hu, -⟩ := exists_of_blockEnd? h
  have hcut : s.tokens = (pre ++ t :: body) ++ u :: rest := by simp [htokens]
  have hlen : pre.length + 1 + body.length = (pre ++ t :: body).length := by
    simp only [List.length_append, List.length_cons]
    omega
  constructor
  · rw [kindAt?, htokens, ← ht]
    simp
  · rw [kindAt?, hlen, hcut, ← hu]
    simp

theorem between_of_cut {pre body rest : List Token} {t u : Token}
    (h : s.tokens = pre ++ t :: (body ++ u :: rest)) :
    s.between pre.length (pre.length + 1 + body.length) = body ∧
      s.tokens.drop (pre.length + 1 + body.length + 1) = rest := by
  have hdrop : s.tokens.drop (pre.length + 1) = body ++ u :: rest := by
    rw [h, ← List.drop_drop, List.drop_left]
    rfl
  constructor
  · rw [between, hdrop, Nat.add_sub_cancel_left, List.take_left]
  · rw [Nat.add_assoc, ← List.drop_drop, hdrop, ← List.drop_drop, List.drop_left]
    rfl

theorem leadingBlock?_drop_iff {b : Bracket} {o : Nat} {body rest : List Token} :
    leadingBlock? b (s.tokens.drop o) = some (body, rest) ↔
      ∃ c, s.blockEnd? b o = some c ∧ body = s.between o c ∧ rest = s.tokens.drop (c + 1) := by
  have hcut {c : Nat} (hc : s.blockEnd? b o = some c) :
      leadingBlock? b (s.tokens.drop o) = some (s.between o c, s.tokens.drop (c + 1)) := by
    obtain ⟨pre, t, body, u, rest, htokens, rfl, rfl, -, -, hblock⟩ := exists_of_blockEnd? hc
    obtain ⟨hbody, hrest⟩ := between_of_cut htokens
    rw [hblock, hbody, hrest]
  constructor
  · intro h
    have hc : s.blockEnd? b o = some (o + 1 + body.length) := by rw [blockEnd?, h]; rfl
    have heq := h.symm.trans (hcut hc)
    simp only [Option.some.injEq, Prod.mk.injEq] at heq
    exact ⟨_, hc, heq⟩
  · rintro ⟨c, hc, rfl, rfl⟩
    exact hcut hc

/-- A block that opens inside another is closed inside it. -/
theorem blockEnd?_nested {b : Bracket} {o c i : Nat} (h : s.blockEnd? b o = some c) (ho : o < i)
    (hc : i < c) (hi : s.kindAt? i = some b.opener) : ∃ e, s.blockEnd? b i = some e ∧ e < c := by
  obtain ⟨pre, t, body, u, rest, htokens, rfl, rfl, -, -, hblock⟩ := exists_of_blockEnd? h
  obtain ⟨v, hget, hv⟩ := Option.map_eq_some_iff.1 hi
  have hbody : body[i - (pre.length + 1)]? = some v := by
    rw [← (between_of_cut htokens).1, between, List.getElem?_take, if_pos (by omega),
      List.getElem?_drop, show pre.length + 1 + (i - (pre.length + 1)) = i by omega]
    exact hget
  obtain ⟨front, back, rfl, hlen⟩ := exists_cut hbody
  -- the tokens from the inner bracket on
  have hdrop : s.tokens.drop i = v :: (back ++ u :: rest) := by
    have hcut : s.tokens = (pre ++ t :: front) ++ v :: (back ++ u :: rest) := by simp [htokens]
    have hi : i = (pre ++ t :: front).length := by
      simp only [List.length_append, List.length_cons]
      omega
    rw [hcut, hi, List.drop_left]
  obtain ⟨t', u', us, -, -, hopen, -, hclose⟩ := exists_of_leadingBlock? hblock
  have hus : us = front ++ v :: (back ++ u :: rest) := by
    rw [htokens, List.drop_left, List.cons.injEq] at hopen
    rw [← hopen.2]
    simp
  rw [hus] at hclose
  obtain ⟨inner, mid, outer, x, hinner, -, hlength⟩ := closeBlock_inner hclose hv (by simp)
  refine ⟨i + 1 + inner.length, ?_, ?_⟩
  · rw [blockEnd?, hdrop, leadingBlock?, if_pos hv, hinner]
    rfl
  · have hlength := congrArg List.length hlength
    simp only [List.length_append, List.length_cons] at hlength ⊢
    omega

end TokenSeq

-- ---------------------------------------------------------------------------
-- The depth of nesting
-- ---------------------------------------------------------------------------

namespace Bracket

/-- How many of the tokens open a block. -/
def opened (b : Bracket) (ts : List Token) : Nat :=
  ts.countP fun t => t.kind = b.opener

/-- How many of the tokens close a block. -/
def closed (b : Bracket) (ts : List Token) : Nat :=
  ts.countP fun t => t.kind = b.closer

/-- The depth of nesting behind one more token. A closing bracket takes one off, and there is
nothing to be taken off at depth zero. -/
def nest? (b : Bracket) (depth : Nat) (t : Token) : Option Nat :=
  if t.kind = b.opener then some (depth + 1)
  else if t.kind = b.closer then
    match depth with
    | 0 => none
    | depth + 1 => some depth
  else some depth

/-- The depth of nesting behind several tokens; there is none if it falls below zero on the way. -/
def nestAll? (b : Bracket) (depth : Nat) (ts : List Token) : Option Nat :=
  ts.foldlM b.nest? depth

variable {b : Bracket} {depth e : Nat} {t : Token} {ts : List Token}

theorem opened_cons : b.opened (t :: ts) = b.opened [t] + b.opened ts := by
  rw [opened, ← List.singleton_append, List.countP_append]
  rfl

theorem closed_cons : b.closed (t :: ts) = b.closed [t] + b.closed ts := by
  rw [closed, ← List.singleton_append, List.countP_append]
  rfl

/-- One token adds what it opens to the depth and takes off what it closes. -/
theorem nest?_eq_some_iff :
    b.nest? depth t = some e ↔ e + b.closed [t] = depth + b.opened [t] := by
  have hne := b.opener_ne_closer
  by_cases ho : t.kind = b.opener
  · simp [nest?, opened, closed, ho, hne, eq_comm]
  by_cases hc : t.kind = b.closer
  · cases depth with
    | zero => simp [nest?, opened, closed, hc, hne.symm]
    | succ depth => simp [nest?, opened, closed, hc, hne.symm, eq_comm]
  · simp [nest?, opened, closed, ho, hc, eq_comm]

theorem nest?_of_opener (h : t.kind = b.opener) : b.nest? depth t = some (depth + 1) := by
  simp [nest?, h]

/-- Where a block is open, one token never brings the depth below zero. -/
theorem exists_nest? (hdepth : depth ≠ 0) (b : Bracket) (t : Token) :
    ∃ e, b.nest? depth t = some e := by
  obtain ⟨d, rfl⟩ := Nat.exists_eq_succ_of_ne_zero hdepth
  unfold nest?
  split
  · exact ⟨_, rfl⟩
  · split
    · exact ⟨_, rfl⟩
    · exact ⟨_, rfl⟩

theorem nestAll?_cons (b : Bracket) (depth : Nat) (t : Token) (ts : List Token) :
    b.nestAll? depth (t :: ts) = (b.nest? depth t).bind fun e => b.nestAll? e ts :=
  List.foldlM_cons

/-- The depth is what was open or has been opened less what has been closed. -/
theorem nestAll?_eq_some (h : b.nestAll? depth ts = some e) :
    e + b.closed ts = depth + b.opened ts := by
  induction ts generalizing depth with
  | nil =>
    cases h
    rfl
  | cons t ts ih =>
    rw [nestAll?_cons] at h
    obtain ⟨d, hd, hts⟩ := Option.bind_eq_some_iff.1 h
    have hstep := nest?_eq_some_iff.1 hd
    have hrest := ih hts
    rw [opened_cons, closed_cons]
    omega

/-- Of `depth` open blocks and those opened in the tokens up to position `j`, all are closed
there. -/
def BalancesAt (b : Bracket) (depth : Nat) (ts : List Token) (j : Nat) : Prop :=
  depth + b.opened (ts.take (j + 1)) = b.closed (ts.take (j + 1))

theorem balancesAt_zero_iff (h : b.nest? depth t = some e) :
    b.BalancesAt depth (t :: ts) 0 ↔ e = 0 := by
  have hstep := nest?_eq_some_iff.1 h
  rw [BalancesAt, List.take_succ_cons, List.take_zero]
  omega

theorem balancesAt_succ_iff {j : Nat} (h : b.nest? depth t = some e) :
    b.BalancesAt depth (t :: ts) (j + 1) ↔ b.BalancesAt e ts j := by
  have hstep := nest?_eq_some_iff.1 h
  rw [BalancesAt, BalancesAt, List.take_succ_cons, opened_cons, closed_cons]
  omega

/-- As long as not all blocks are closed again, the next token does not bring the depth below zero
either. -/
theorem exists_nestAll? {j : Nat} (hdepth : depth ≠ 0) (h : ∀ i < j, ¬b.BalancesAt depth ts i) :
    ∃ e, b.nestAll? depth (ts.take (j + 1)) = some e := by
  induction ts generalizing depth j with
  | nil => exact ⟨depth, rfl⟩
  | cons t ts ih =>
    obtain ⟨d, hd⟩ := exists_nest? hdepth b t
    rw [List.take_succ_cons, nestAll?_cons, hd, Option.bind_some]
    cases j with
    | zero => exact ⟨d, rfl⟩
    | succ j =>
      have hd0 : d ≠ 0 := mt (balancesAt_zero_iff hd).2 (h 0 (Nat.succ_pos j))
      refine ih hd0 fun i hi => ?_
      exact mt (balancesAt_succ_iff hd).2 (h (i + 1) (Nat.succ_lt_succ hi))

end Bracket

-- ---------------------------------------------------------------------------
-- Where the counts first agree
-- ---------------------------------------------------------------------------

/-- One token of the pass: with it the last open block is closed, or some block is still open. The
pass does not count the block that it began with. -/
theorem closeBlock_cons_nest (b : Bracket) (depth : Nat) (t : Token) (ts : List Token) :
    (b.nest? (depth + 1) t = some 0 ∧ closeBlock b depth (t :: ts) = some ([], ts)) ∨
      ∃ d, b.nest? (depth + 1) t = some (d + 1) ∧ closeBlock b depth (t :: ts) =
        (closeBlock b d ts).map fun (body, rest) => (t :: body, rest) := by
  by_cases ho : t.kind = b.opener
  · exact .inr ⟨depth + 1, by simp [Bracket.nest?, ho], closeBlock_of_opener _ _ ho⟩
  by_cases hc : t.kind = b.closer
  · have hnest : b.nest? (depth + 1) t = some depth := by
      simp [Bracket.nest?, hc, b.opener_ne_closer.symm]
    cases depth with
    | zero => exact .inl ⟨hnest, closeBlock_zero_of_closer _ hc⟩
    | succ depth => exact .inr ⟨depth, hnest, closeBlock_succ_of_closer _ _ hc⟩
  · exact .inr ⟨depth, by simp [Bracket.nest?, ho, hc], closeBlock_of_other _ _ ho hc⟩

/-- The pass ends at the first position at which all blocks are closed. -/
theorem length_closeBlock_iff {b : Bracket} {depth j : Nat} {ts : List Token} :
    (closeBlock b depth ts).map (·.1.length) = some j ↔
      b.BalancesAt (depth + 1) ts j ∧ ∀ i < j, ¬b.BalancesAt (depth + 1) ts i := by
  induction ts generalizing depth j with
  | nil => simp [closeBlock, Bracket.BalancesAt, Bracket.opened, Bracket.closed]
  | cons t ts ih =>
    obtain ⟨hnest, hclose⟩ | ⟨d, hnest, hclose⟩ := closeBlock_cons_nest b depth t ts
    · have hzero : b.BalancesAt (depth + 1) (t :: ts) 0 := (Bracket.balancesAt_zero_iff hnest).2 rfl
      rw [hclose, Option.map_some, Option.some.injEq]
      constructor
      · rintro rfl
        exact ⟨hzero, fun i hi => absurd hi (Nat.not_lt_zero i)⟩
      · rintro ⟨-, hfirst⟩
        by_contra hj
        exact hfirst 0 (Nat.pos_of_ne_zero (Ne.symm hj)) hzero
    · have hzero : ¬b.BalancesAt (depth + 1) (t :: ts) 0 := by
        rw [Bracket.balancesAt_zero_iff hnest]
        exact Nat.succ_ne_zero d
      have hlength : (closeBlock b depth (t :: ts)).map (·.1.length) =
          ((closeBlock b d ts).map (·.1.length)).map (· + 1) := by
        rw [hclose, Option.map_map, Option.map_map]
        rfl
      rw [hlength]
      cases j with
      | zero => exact iff_of_false (by simp) fun h => hzero h.1
      | succ j =>
        have hlater : ∀ i, b.BalancesAt (depth + 1) (t :: ts) (i + 1) ↔ b.BalancesAt (d + 1) ts i :=
          fun i => Bracket.balancesAt_succ_iff hnest
        rw [hlater, Nat.forall_lt_succ_left]
        simp only [Option.map_eq_some_iff, Nat.add_right_cancel_iff, exists_eq_right, ih, hlater,
          hzero, not_false_eq_true, true_and]

namespace TokenSeq

variable {s : TokenSeq} {b : Bracket} {o c : Nat}

/-- The tokens from one position to another, both included. -/
def slice (s : TokenSeq) (o c : Nat) : List Token :=
  (s.tokens.drop o).take (c + 1 - o)

/-- From position `o` to position `c` as many blocks are closed as opened. -/
def Balanced (s : TokenSeq) (b : Bracket) (o c : Nat) : Prop :=
  b.opened (s.slice o c) = b.closed (s.slice o c)

/-- From an opening bracket on, the tokens are this bracket and those behind it. -/
theorem exists_slice_of_opener (h : s.kindAt? o = some b.opener) :
    ∃ t, t.kind = b.opener ∧ s.tokens.drop o = t :: s.tokens.drop (o + 1) ∧
      ∀ j, s.slice o (o + j) = t :: (s.tokens.drop (o + 1)).take j := by
  obtain ⟨t, hget, ht⟩ := Option.map_eq_some_iff.1 h
  obtain ⟨hlt, rfl⟩ := List.getElem?_eq_some_iff.1 hget
  have hdrop := List.drop_eq_getElem_cons hlt
  refine ⟨_, ht, hdrop, fun j => ?_⟩
  rw [slice, hdrop, show o + j + 1 - o = j + 1 by omega, List.take_succ_cons]

theorem balanced_iff_balancesAt (h : s.kindAt? o = some b.opener) {j : Nat} :
    s.Balanced b o (o + 1 + j) ↔ b.BalancesAt 1 (s.tokens.drop (o + 1)) j := by
  obtain ⟨t, ht, -, hslice⟩ := exists_slice_of_opener h
  rw [← Bracket.balancesAt_succ_iff (Bracket.nest?_of_opener ht), Balanced, Nat.add_assoc,
    Nat.add_comm 1 j, hslice, Bracket.BalancesAt, Nat.zero_add, List.take_succ_cons]

/-- The block of an opening bracket ends at the first position behind it up to which as many blocks
are closed as opened. -/
theorem blockEnd?_eq_some_iff_of_opener (h : s.kindAt? o = some b.opener) :
    s.blockEnd? b o = some c ↔ IsLeast {c | o < c ∧ s.Balanced b o c} c := by
  obtain ⟨t, ht, hdrop, -⟩ := exists_slice_of_opener h
  have hend : s.blockEnd? b o =
      ((closeBlock b 0 (s.tokens.drop (o + 1))).map (·.1.length)).map (o + 1 + ·) := by
    rw [blockEnd?, hdrop, leadingBlock?, if_pos ht, Option.map_map]
    rfl
  rw [hend, Option.map_eq_some_iff]
  constructor
  · rintro ⟨j, hj, rfl⟩
    obtain ⟨hbalances, hfirst⟩ := length_closeBlock_iff.1 hj
    refine ⟨⟨by omega, (balanced_iff_balancesAt h).2 hbalances⟩, ?_⟩
    rintro m ⟨hlt, hm⟩
    obtain ⟨i, rfl⟩ := Nat.exists_eq_add_of_le hlt
    by_contra hle
    exact hfirst i (by omega) ((balanced_iff_balancesAt h).1 hm)
  · rintro ⟨⟨hlt, hc⟩, hleast⟩
    obtain ⟨j, rfl⟩ := Nat.exists_eq_add_of_le hlt
    refine ⟨j, length_closeBlock_iff.2 ⟨(balanced_iff_balancesAt h).1 hc, fun i hi hbalances => ?_⟩,
      rfl⟩
    have hle : o + 1 + j ≤ o + 1 + i :=
      hleast ⟨by omega, (balanced_iff_balancesAt h).2 hbalances⟩
    omega

/-- A block is closed no later than at a position up to which the counts agree. -/
theorem exists_blockEnd?_of_balanced (h : s.kindAt? o = some b.opener) {m : Nat} (hlt : o < m)
    (hm : s.Balanced b o m) : ∃ c, s.blockEnd? b o = some c ∧ c ≤ m := by
  classical
  have hleast := Nat.isLeast_find (p := fun c => o < c ∧ s.Balanced b o c) ⟨m, hlt, hm⟩
  exact ⟨_, (blockEnd?_eq_some_iff_of_opener h).2 hleast, hleast.2 ⟨hlt, hm⟩⟩

/-- There is no end only if no block opens or if the counts never agree. -/
theorem blockEnd?_eq_none_iff :
    s.blockEnd? b o = none ↔ s.length ≤ o ∨ (∃ k, s.kindAt? o = some k ∧ k ≠ b.opener) ∨
      ∀ c, o < c → ¬s.Balanced b o c := by
  cases hend : s.blockEnd? b o with
  | some c =>
    have hopen := (kindAt?_of_blockEnd? hend).1
    have hc := ((blockEnd?_eq_some_iff_of_opener hopen).1 hend).1
    refine iff_of_false nofun ?_
    rintro (hle | ⟨k, hk, hne⟩ | hnever)
    · rw [kindAt?, List.getElem?_eq_none hle] at hopen
      cases hopen
    · exact hne (Option.some.inj (hk.symm.trans hopen))
    · exact hnever c hc.1 hc.2
  | none =>
    refine iff_of_true rfl ?_
    cases hkind : s.kindAt? o with
    | none => exact .inl (List.getElem?_eq_none_iff.1 (Option.map_eq_none_iff.1 hkind))
    | some k =>
      by_cases hk : k = b.opener
      · refine .inr (.inr fun c hlt hc => ?_)
        obtain ⟨e, he, -⟩ := exists_blockEnd?_of_balanced (hkind.trans (congrArg some hk)) hlt hc
        rw [hend] at he
        cases he
      · exact .inr (.inl ⟨k, rfl, hk⟩)

/-- Up to the end of a block the counts agree at this end only. -/
theorem balanced_iff_blockEnd? (h : s.kindAt? o = some b.opener) {m : Nat} (hle : o ≤ m)
    (hend : ∀ c ∈ s.blockEnd? b o, m ≤ c) : s.Balanced b o m ↔ s.blockEnd? b o = some m := by
  constructor
  · intro hm
    rcases Nat.eq_or_lt_of_le hle with rfl | hlt
    · -- the opening bracket alone
      obtain ⟨t, ht, -, hslice⟩ := exists_slice_of_opener h
      have hone : 1 + b.closed [t] = 0 + b.opened [t] :=
        Bracket.nest?_eq_some_iff.1 (Bracket.nest?_of_opener ht)
      have hself : s.slice o o = [t] := hslice 0
      rw [Balanced, hself] at hm
      omega
    · obtain ⟨c, hc, hcm⟩ := exists_blockEnd?_of_balanced h hlt hm
      rw [hc, Nat.le_antisymm hcm (hend c hc)]
  · intro hm
    exact ((blockEnd?_eq_some_iff_of_opener h).1 hm).1.2

/-- From an opening bracket to the end of its block the depth never falls below zero. -/
theorem exists_depth (h : s.kindAt? o = some b.opener) {m : Nat} (hle : o ≤ m)
    (hend : ∀ c ∈ s.blockEnd? b o, m ≤ c) : ∃ depth, b.nestAll? 0 (s.slice o m) = some depth := by
  obtain ⟨t, ht, -, hslice⟩ := exists_slice_of_opener h
  obtain ⟨j, rfl⟩ := Nat.exists_eq_add_of_le hle
  rw [hslice, Bracket.nestAll?_cons, Bracket.nest?_of_opener ht, Option.bind_some]
  cases j with
  | zero => exact ⟨1, rfl⟩
  | succ j =>
    refine Bracket.exists_nestAll? Nat.one_ne_zero fun i hi hbalances => ?_
    obtain ⟨c, hc, hci⟩ := exists_blockEnd?_of_balanced h (by omega)
      ((balanced_iff_balancesAt h).2 hbalances)
    have := hend c hc
    omega

/-- The end of a block is where, from the opening bracket on, the counts of the two brackets first
agree; up to there the depth of nesting is what is opened less what is closed and never falls below
zero; and a block that opens inside is closed inside. -/
theorem blockEnd?_isLeast_balanced (s : TokenSeq) (b : Bracket) (o : Nat) :
    (∀ c, s.blockEnd? b o = some c ↔
      s.kindAt? o = some b.opener ∧ IsLeast {c | o < c ∧ s.Balanced b o c} c) ∧
    (∀ c, s.blockEnd? b o = some c → s.kindAt? c = some b.closer) ∧
    (s.blockEnd? b o = none ↔ s.length ≤ o ∨ (∃ k, s.kindAt? o = some k ∧ k ≠ b.opener) ∨
      ∀ c, o < c → ¬s.Balanced b o c) ∧
    (∀ m, s.kindAt? o = some b.opener → o ≤ m → (∀ c ∈ s.blockEnd? b o, m ≤ c) →
      ∃ depth, b.nestAll? 0 (s.slice o m) = some depth ∧
        depth + b.closed (s.slice o m) = b.opened (s.slice o m) ∧
        (depth = 0 ↔ s.blockEnd? b o = some m)) ∧
    ∀ c i, s.blockEnd? b o = some c → o < i → i < c → s.kindAt? i = some b.opener →
      ∃ e, s.blockEnd? b i = some e ∧ e < c := by
  refine ⟨fun c => ?_, fun c hc => (kindAt?_of_blockEnd? hc).2, blockEnd?_eq_none_iff,
    fun m hopen hle hend => ?_, fun c i hc hoi hic hi => blockEnd?_nested hc hoi hic hi⟩
  · constructor
    · intro hc
      have hopen := (kindAt?_of_blockEnd? hc).1
      exact ⟨hopen, (blockEnd?_eq_some_iff_of_opener hopen).1 hc⟩
    · rintro ⟨hopen, hleast⟩
      exact (blockEnd?_eq_some_iff_of_opener hopen).2 hleast
  · obtain ⟨depth, hdepth⟩ := exists_depth hopen hle hend
    have hcount := Bracket.nestAll?_eq_some hdepth
    rw [Nat.zero_add] at hcount
    refine ⟨depth, hdepth, hcount, ?_⟩
    rw [← balanced_iff_blockEnd? hopen hle hend, Balanced]
    omega

/-- A stray closing parenthesis before the block, a brace inside it, and a block that is never
closed behind it. -/
theorem blockEnd?_isLeast_balanced_stray :
    let s := TokenSeq.ofList
      [⟨.rParen, ")"⟩, ⟨.lParen, "("⟩, ⟨.lBrace, "\x7b"⟩, ⟨.lParen, "("⟩, ⟨.whitespace, " "⟩,
        ⟨.rParen, ")"⟩, ⟨.rParen, ")"⟩, ⟨.lParen, "("⟩]
    (s.blockEnd? .parenthesis 1 = some 6 ∧
      IsLeast {c | 1 < c ∧ s.Balanced .parenthesis 1 c} 6 ∧
      ∃ e, s.blockEnd? .parenthesis 3 = some e ∧ e < 6) ∧
    s.kindAt? 7 = some .lParen ∧ s.blockEnd? .parenthesis 7 = none ∧
      ∃ depth, Bracket.parenthesis.nestAll? 0 (s.slice 7 9) = some depth ∧ depth ≠ 0 := by
  intro s
  have hclosed : s.blockEnd? .parenthesis 1 = some 6 := by decide
  have hopen : s.blockEnd? .parenthesis 7 = none := by decide
  obtain ⟨hsome, -, -, -, hnested⟩ := blockEnd?_isLeast_balanced s .parenthesis 1
  obtain ⟨-, -, -, hdepth, -⟩ := blockEnd?_isLeast_balanced s .parenthesis 7
  obtain ⟨depth, hnest, -, hzero⟩ := hdepth 9 (by decide) (by decide) (by rw [hopen]; nofun)
  refine ⟨⟨hclosed, ((hsome 6).1 hclosed).2, hnested 6 3 hclosed (by decide) (by decide)
    (by decide)⟩, by decide, hopen, depth, hnest, ?_⟩
  rw [Ne, hzero, hopen]
  nofun

end TokenSeq

end PhpImports
