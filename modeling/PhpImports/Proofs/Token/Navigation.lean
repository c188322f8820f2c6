import PhpImports.Token.Sequence

/-!
# PhpImports — neighbours and blocks in a token sequence

A scan may go from position to position over trivia, or drop the trivia first and take
the tokens one by one. This module says that the two see the same neighbours and the
same blocks, and how blocks lie inside one another.

## Results

* `TokenSeq.next?_eq_some_iff`, `TokenSeq.prev?_eq_some_iff` — the nearest positions.
* `TokenSeq.nextOfKind?_eq_some_iff` — the next token of some kinds.
* `TokenSeq.prevMeaningful?_eq_iff` — a neighbour's neighbour is the token itself.
* `TokenSeq.meaningful_take_of_prevMeaningful?`, `TokenSeq.meaningful_drop_eq_cons_iff` — the tokens
  without trivia before a position and behind it.
* `TokenSeq.kindBefore?_eq`, `TokenSeq.kindAfter?_eq` — the kinds of the neighbours.
* `closeBlock_meaningful` — trivia is of no account for brackets.
* `closeBlock_inner` — a block that opens inside a closed block is closed inside it.
-/

namespace PhpImports

theorem lt_length_of_any {p : Token → Bool} {ts : List Token} {i : Nat}
    (h : ts[i]?.any p = true) : i < ts.length := by
  rcases Nat.lt_or_ge i ts.length with hlt | hge
  · exact hlt
  · rw [List.getElem?_eq_none hge] at h
    exact absurd h (by simp)

theorem findIdx?_eq_some_iff_any {p : Token → Bool} {ts : List Token} {i : Nat} :
    ts.findIdx? p = some i ↔ ts[i]?.any p = true ∧ ∀ j, j < i → ts[j]?.any p = false := by
  have hany : ∀ j (hj : j < ts.length), ts[j]?.any p = p ts[j] := by
    intro j hj
    rw [List.getElem?_eq_getElem hj, Option.any_some]
  rw [List.findIdx?_eq_some_iff_getElem]
  constructor
  · rintro ⟨hlt, hi, hbefore⟩
    refine ⟨by rw [hany i hlt, hi], ?_⟩
    intro j hj
    rw [hany j (Nat.lt_trans hj hlt)]
    simpa using hbefore j hj
  · rintro ⟨hi, hbefore⟩
    have hlt := lt_length_of_any hi
    refine ⟨hlt, by rw [← hany i hlt, hi], ?_⟩
    intro j hj
    rw [← hany j (Nat.lt_trans hj hlt), hbefore j hj]
    exact Bool.false_ne_true

/-- A sequence cut at one of its positions. -/
theorem exists_cut {ts : List Token} {i : Nat} {t : Token} (h : ts[i]? = some t) :
    ∃ pre post, ts = pre ++ t :: post ∧ pre.length = i := by
  obtain ⟨hlt, rfl⟩ := List.getElem?_eq_some_iff.1 h
  refine ⟨ts.take i, ts.drop (i + 1), ?_, ?_⟩
  · rw [← List.drop_eq_getElem_cons, List.take_append_drop]
  · rw [List.length_take]
    omega

theorem meaningful_cons_of_pos {t : Token} (ht : t.isMeaningful = true) (ts : List Token) :
    meaningful (t :: ts) = t :: meaningful ts :=
  List.filter_cons_of_pos ht

theorem meaningful_cons_of_neg {t : Token} (ht : ¬t.isMeaningful = true) (ts : List Token) :
    meaningful (t :: ts) = meaningful ts :=
  List.filter_cons_of_neg ht

/-- The tokens without trivia, cut at one token, come from the tokens cut at this token. -/
theorem exists_of_meaningful_eq {ts us vs : List Token} {t : Token}
    (h : meaningful ts = us ++ t :: vs) :
    ∃ pre post, ts = pre ++ t :: post ∧ meaningful pre = us ∧ meaningful post = vs := by
  obtain ⟨pre, post, rfl, hpre, hpost⟩ := List.filter_eq_append_iff.1 h
  obtain ⟨trivia, post, rfl, htrivia, -, hpost⟩ := List.filter_eq_cons_iff.1 hpost
  refine ⟨pre ++ trivia, post, (List.append_assoc ..).symm, ?_, hpost⟩
  have hnone : meaningful trivia = [] := List.filter_eq_nil_iff.2 htrivia
  rw [meaningful_append, hnone, List.append_nil]
  exact hpre

namespace TokenSeq

variable {s : TokenSeq} {p : Token → Bool} {i j : Nat}

-- ---------------------------------------------------------------------------
-- The nearest positions
-- ---------------------------------------------------------------------------

theorem next?_eq_some_iff :
    s.next? p i = some j ↔
      i < j ∧ s.tokens[j]?.any p = true ∧ ∀ m, i < m → m < j → s.tokens[m]?.any p = false := by
  simp only [next?, Option.map_eq_some_iff, findIdx?_eq_some_iff_any, List.getElem?_drop]
  constructor
  · rintro ⟨d, ⟨hd, hbefore⟩, rfl⟩
    refine ⟨by omega, hd, ?_⟩
    intro m hm hlt
    have h := hbefore (m - (i + 1)) (by omega)
    rwa [show i + 1 + (m - (i + 1)) = m by omega] at h
  · rintro ⟨hlt, hj, hbetween⟩
    refine ⟨j - (i + 1), ⟨?_, ?_⟩, by omega⟩
    · rwa [show i + 1 + (j - (i + 1)) = j by omega]
    · intro d hd
      exact hbetween _ (by omega) (by omega)

theorem prev?_eq_some_iff :
    s.prev? p i = some j ↔
      j < i ∧ s.tokens[j]?.any p = true ∧ ∀ m, j < m → m < i → s.tokens[m]?.any p = false := by
  generalize hn : (s.tokens.take i).length = n
  have hmin : n = min i s.tokens.length := hn ▸ List.length_take
  have hget : ∀ m, m < n → (s.tokens.take i).reverse[m]? = s.tokens[n - 1 - m]? := by
    intro m hm
    rw [List.getElem?_reverse (by omega), List.getElem?_take, if_pos (by omega), hn]
  simp only [prev?, Option.map_eq_some_iff, findIdx?_eq_some_iff_any, hn]
  constructor
  · rintro ⟨d, ⟨hd, hbefore⟩, rfl⟩
    have hdlt : d < n := by simpa [hn] using lt_length_of_any hd
    rw [hget d hdlt] at hd
    refine ⟨by omega, hd, ?_⟩
    intro m hm hlt
    rcases Nat.lt_or_ge m s.tokens.length with hin | hout
    · have h := hbefore (n - 1 - m) (by omega)
      rwa [hget _ (by omega), show n - 1 - (n - 1 - m) = m by omega] at h
    · rw [List.getElem?_eq_none hout]
      rfl
  · rintro ⟨hlt, hj, hbetween⟩
    have hin := lt_length_of_any hj
    refine ⟨n - 1 - j, ⟨?_, ?_⟩, by omega⟩
    · rwa [hget _ (by omega), show n - 1 - (n - 1 - j) = j by omega]
    · intro d hd
      rw [hget _ (by omega)]
      exact hbetween _ (by omega) (by omega)

theorem next?_eq_none_iff :
    s.next? p i = none ↔ ∀ m, i < m → s.tokens[m]?.any p = false := by
  simp only [next?, Option.map_eq_none_iff, List.findIdx?_eq_none_iff]
  constructor
  · intro h m hm
    cases ht : s.tokens[m]? with
    | none => rfl
    | some t =>
      refine h t (List.mem_of_getElem? (i := m - (i + 1)) ?_)
      rwa [List.getElem?_drop, show i + 1 + (m - (i + 1)) = m by omega]
  · intro h t ht
    obtain ⟨d, hd⟩ := List.mem_iff_getElem?.1 ht
    rw [List.getElem?_drop] at hd
    simpa [hd] using h (i + 1 + d) (by omega)

theorem any_contains_iff {ks : List Kind} :
    s.tokens[i]?.any (fun t => ks.contains t.kind) = true ↔ ∃ k ∈ ks, s.kindAt? i = some k := by
  rw [kindAt?]
  cases s.tokens[i]? with
  | none => simp
  | some t => simp

theorem nextOfKind?_eq_some_iff {ks : List Kind} :
    s.nextOfKind? ks i = some j ↔
      i < j ∧ (∃ k ∈ ks, s.kindAt? j = some k) ∧
        ∀ m, i < m → m < j → ∀ k ∈ ks, s.kindAt? m ≠ some k := by
  rw [nextOfKind?, next?_eq_some_iff, any_contains_iff]
  simp only [← Bool.not_eq_true, any_contains_iff, not_exists, not_and]

/-- If there is a token of one of the kinds behind a position, the next one is no later. -/
theorem exists_nextOfKind? {ks : List Kind} {k : Kind} (hlt : i < j) (hk : k ∈ ks)
    (hj : s.kindAt? j = some k) : ∃ m, s.nextOfKind? ks i = some m ∧ m ≤ j := by
  cases hnext : s.nextOfKind? ks i with
  | none =>
    have hnone := next?_eq_none_iff.1 hnext j hlt
    rw [any_contains_iff.2 ⟨k, hk, hj⟩] at hnone
    exact Bool.noConfusion hnone
  | some m =>
    refine ⟨m, rfl, Nat.le_of_not_lt fun hjm => ?_⟩
    exact (nextOfKind?_eq_some_iff.1 hnext).2.2 j hlt hjm k hk hj

/-- The next token that is not trivia is no later than any other such token. -/
theorem nextMeaningful?_le {m : Nat} {k : Kind} (h : s.nextMeaningful? i = some j) (hlt : i < m)
    (hm : s.kindAt? m = some k) (hk : k.isMeaningful = true) : j ≤ m := by
  refine Nat.le_of_not_lt fun hmj => ?_
  obtain ⟨t, hget, rfl⟩ := Option.map_eq_some_iff.1 hm
  have hbetween := (next?_eq_some_iff.1 h).2.2 m hlt hmj
  rw [hget, Option.any_some, Token.isMeaningful, hk] at hbetween
  exact Bool.noConfusion hbetween

/-- Two tokens that are not trivia are neighbours from either side. -/
theorem prevMeaningful?_eq_iff (hi : s.tokens[i]?.any Token.isMeaningful = true)
    (hj : s.tokens[j]?.any Token.isMeaningful = true) :
    s.prevMeaningful? j = some i ↔ s.nextMeaningful? i = some j := by
  simp only [prevMeaningful?, nextMeaningful?, prev?_eq_some_iff, next?_eq_some_iff, hi, hj]

-- ---------------------------------------------------------------------------
-- The tokens without trivia, from a position on
-- ---------------------------------------------------------------------------

theorem meaningful_drop_of_trivia {ts : List Token} {i j : Nat} (hle : i ≤ j)
    (h : ∀ m, i ≤ m → m < j → ts[m]?.any Token.isMeaningful = false) :
    meaningful (ts.drop i) = meaningful (ts.drop j) := by
  induction hle with
  | refl => rfl
  | @step j hle ih =>
    rw [ih fun m hm hlt => h m hm (by omega)]
    have hj := h j hle (by omega)
    rcases Nat.lt_or_ge j ts.length with hlt | hge
    · rw [List.getElem?_eq_getElem hlt, Option.any_some] at hj
      rw [List.drop_eq_getElem_cons hlt, meaningful_cons_of_neg (by simp [hj])]
    · rw [List.drop_eq_nil_of_le hge, List.drop_eq_nil_of_le (by omega)]

theorem meaningful_drop_of_getElem? {ts : List Token} {i : Nat} {t : Token}
    (hget : ts[i]? = some t) (ht : t.isMeaningful = true) :
    meaningful (ts.drop i) = t :: meaningful (ts.drop (i + 1)) := by
  obtain ⟨hlt, rfl⟩ := List.getElem?_eq_some_iff.1 hget
  rw [List.drop_eq_getElem_cons hlt, meaningful_cons_of_pos ht]

theorem meaningful_drop_of_nextMeaningful? (h : s.nextMeaningful? i = some j) :
    meaningful (s.tokens.drop (i + 1)) = meaningful (s.tokens.drop j) := by
  obtain ⟨hlt, -, hbetween⟩ := next?_eq_some_iff.1 h
  exact meaningful_drop_of_trivia hlt fun m hm hmj => hbetween m hm hmj

theorem meaningful_drop_of_nextMeaningful?_none (h : s.nextMeaningful? i = none) :
    meaningful (s.tokens.drop (i + 1)) = [] := by
  have hnone := next?_eq_none_iff.1 h
  rw [meaningful_drop_of_trivia (Nat.le_add_right _ s.tokens.length) fun m hm _ => hnone m hm,
    List.drop_eq_nil_of_le (by omega)]
  rfl

/-- The next token that is not trivia, and those behind it. -/
theorem meaningful_drop_eq_cons_iff {t : Token} {ts : List Token} :
    meaningful (s.tokens.drop (i + 1)) = t :: ts ↔
      ∃ j, s.nextMeaningful? i = some j ∧ s.tokens[j]? = some t ∧
        meaningful (s.tokens.drop (j + 1)) = ts := by
  cases hnext : s.nextMeaningful? i with
  | none => simp [meaningful_drop_of_nextMeaningful?_none hnext]
  | some j =>
    obtain ⟨u, hget, hu⟩ := (Option.any_eq_true _ _).1 (next?_eq_some_iff.1 hnext).2.1
    rw [meaningful_drop_of_nextMeaningful? hnext, meaningful_drop_of_getElem? hget hu]
    simp [hget]

-- ---------------------------------------------------------------------------
-- The tokens without trivia, up to a position
-- ---------------------------------------------------------------------------

/-- The last token before a position that is not trivia, and those before it. -/
theorem meaningful_take_of_prevMeaningful? {i k : Nat} {t : Token}
    (h : s.prevMeaningful? i = some k) (hget : s.tokens[k]? = some t) :
    meaningful (s.tokens.take i) = meaningful (s.tokens.take k) ++ [t] := by
  obtain ⟨hki, hk, hbetween⟩ := prev?_eq_some_iff.1 h
  rw [hget, Option.any_some] at hk
  obtain ⟨d, rfl⟩ := Nat.exists_eq_add_of_le hki
  have hcut : s.tokens.take (k + 1) = s.tokens.take k ++ [t] := by
    rw [List.take_add_one, hget]
    rfl
  have htrivia : meaningful ((s.tokens.drop (k + 1)).take d) = [] := by
    refine List.filter_eq_nil_iff.2 fun u hu => ?_
    obtain ⟨n, hn⟩ := List.mem_iff_getElem?.1 hu
    rw [List.getElem?_take] at hn
    split at hn
    · next hnd =>
      rw [List.getElem?_drop] at hn
      simpa [hn] using hbetween (k + 1 + n) (by omega) (by omega)
    · cases hn
  rw [Nat.succ_eq_add_one, List.take_add, hcut, meaningful_append, meaningful_append, htrivia,
    meaningful_cons_of_pos hk, List.append_nil]
  rfl

theorem meaningful_take_of_prevMeaningful?_none {i : Nat} (h : s.prevMeaningful? i = none) :
    meaningful (s.tokens.take i) = [] := by
  simp only [prevMeaningful?, prev?, Option.map_eq_none_iff, List.findIdx?_eq_none_iff,
    List.mem_reverse] at h
  refine List.filter_eq_nil_iff.2 fun t ht => ?_
  simp [h t ht]

-- ---------------------------------------------------------------------------
-- The kinds of the neighbours
-- ---------------------------------------------------------------------------

/-- Kind of the last token before position `i` that is not trivia. -/
def kindBefore? (s : TokenSeq) (i : Nat) : Option Kind :=
  (s.prevMeaningful? i).bind s.kindAt?

/-- Kind of the first token after position `i` that is not trivia. -/
def kindAfter? (s : TokenSeq) (i : Nat) : Option Kind :=
  (s.nextMeaningful? i).bind s.kindAt?

theorem kindAfter?_eq (s : TokenSeq) (i : Nat) :
    s.kindAfter? i = (meaningful (s.tokens.drop (i + 1))).head?.map Token.kind := by
  rw [meaningful, List.head?_filter, List.find?_eq_bind_findIdx?_getElem?]
  simp only [kindAfter?, nextMeaningful?, next?, Option.bind_map, Option.map_bind]
  congr 1
  funext d
  rw [Function.comp_apply, Function.comp_apply, List.getElem?_drop]
  rfl

theorem kindBefore?_eq (s : TokenSeq) (i : Nat) :
    s.kindBefore? i = (meaningful (s.tokens.take i)).getLast?.map Token.kind := by
  rw [meaningful, List.getLast?_filter, List.find?_eq_bind_findIdx?_getElem?]
  simp only [kindBefore?, prevMeaningful?, prev?, Option.bind_map, Option.map_bind]
  refine Option.bind_congr fun d hd => ?_
  have hlt : d < (s.tokens.take i).length := by
    simpa using lt_length_of_any (findIdx?_eq_some_iff_any.1 hd).1
  have hle := List.length_take_le i s.tokens
  rw [Function.comp_apply, Function.comp_apply, List.getElem?_reverse hlt, List.getElem?_take,
    if_pos (by omega)]
  rfl

end TokenSeq

-- ---------------------------------------------------------------------------
-- Blocks
-- ---------------------------------------------------------------------------

theorem Bracket.isMeaningful_of_opener {b : Bracket} {t : Token} (h : t.kind = b.opener) :
    t.isMeaningful = true := by
  rw [Token.isMeaningful, h]
  cases b <;> rfl

theorem Bracket.isMeaningful_of_closer {b : Bracket} {t : Token} (h : t.kind = b.closer) :
    t.isMeaningful = true := by
  rw [Token.isMeaningful, h]
  cases b <;> rfl

/-- A token closes the block, or it goes into the body, and how many inner blocks are open
behind it does not depend on how many are open around them. -/
theorem closeBlock_cons_cases (b : Bracket) (depth : Nat) (t : Token) :
    (t.kind = b.closer ∧ depth = 0) ∨
      ∃ d, ∀ e ts, closeBlock b (depth + e) (t :: ts) =
        (closeBlock b (d + e) ts).map fun (body, rest) => (t :: body, rest) := by
  by_cases ho : t.kind = b.opener
  · refine .inr ⟨depth + 1, fun e ts => ?_⟩
    rw [closeBlock_of_opener _ _ ho, Nat.add_right_comm]
  by_cases hc : t.kind = b.closer
  · cases depth with
    | zero => exact .inl ⟨hc, rfl⟩
    | succ depth =>
      refine .inr ⟨depth, fun e ts => ?_⟩
      rw [Nat.add_right_comm, closeBlock_succ_of_closer _ _ hc]
  · exact .inr ⟨depth, fun e ts => closeBlock_of_other _ _ ho hc⟩

/-- Trivia is of no account for brackets. -/
theorem closeBlock_meaningful (b : Bracket) (depth : Nat) (ts : List Token) :
    closeBlock b depth (meaningful ts) =
      (closeBlock b depth ts).map (Prod.map meaningful meaningful) := by
  induction ts generalizing depth with
  | nil => rfl
  | cons t ts ih =>
    by_cases ht : t.isMeaningful = true
    · rw [meaningful_cons_of_pos ht]
      obtain ⟨hc, rfl⟩ | ⟨d, hstep⟩ := closeBlock_cons_cases b depth t
      · rw [closeBlock_zero_of_closer _ hc, closeBlock_zero_of_closer _ hc]
        rfl
      · have hstep := hstep 0
        simp only [Nat.add_zero] at hstep
        rw [hstep, hstep, ih d, Option.map_map, Option.map_map]
        congr 1
        funext x
        simp [meaningful_cons_of_pos ht]
    · have ho : t.kind ≠ b.opener := fun h => ht (Bracket.isMeaningful_of_opener h)
      have hc : t.kind ≠ b.closer := fun h => ht (Bracket.isMeaningful_of_closer h)
      rw [meaningful_cons_of_neg ht, closeBlock_of_other _ _ ho hc, ih, Option.map_map]
      congr 1
      funext x
      simp [Prod.map, meaningful_cons_of_neg ht]

theorem leadingBlock?_meaningful {b : Bracket} {ts : List Token}
    (h : ∀ t ∈ ts.head?, t.isMeaningful = true) :
    leadingBlock? b (meaningful ts) =
      (leadingBlock? b ts).map (Prod.map meaningful meaningful) := by
  cases ts with
  | nil => rfl
  | cons t ts =>
    rw [meaningful_cons_of_pos (h t rfl), leadingBlock?, leadingBlock?]
    split
    · exact closeBlock_meaningful b 0 ts
    · rfl

/-- Of several open blocks the innermost is closed first. -/
theorem closeBlock_add {b : Bracket} {d e : Nat} {ts body rest : List Token}
    (h : closeBlock b (e + (d + 1)) ts = some (body, rest)) :
    ∃ (inner mid outer : List Token) (t : Token), closeBlock b e ts = some (inner, mid) ∧
      t.kind = b.closer ∧ body = inner ++ t :: outer := by
  induction ts generalizing e body with
  | nil => simp [closeBlock] at h
  | cons t ts ih =>
    obtain ⟨hc, rfl⟩ | ⟨e', hstep⟩ := closeBlock_cons_cases b e t
    · rw [Nat.zero_add, closeBlock_succ_of_closer _ _ hc] at h
      obtain ⟨⟨outer, rest'⟩, -, hbody⟩ := Option.map_eq_some_iff.1 h
      cases hbody
      exact ⟨[], ts, outer, t, closeBlock_zero_of_closer _ hc, hc, rfl⟩
    · rw [hstep] at h
      obtain ⟨⟨body', rest'⟩, hcut, hbody⟩ := Option.map_eq_some_iff.1 h
      cases hbody
      obtain ⟨inner, mid, outer, u, hinner, hu, rfl⟩ := ih hcut
      refine ⟨t :: inner, mid, outer, u, ?_, hu, rfl⟩
      have hstep := hstep 0 ts
      rw [Nat.add_zero, Nat.add_zero] at hstep
      rw [hstep, hinner]
      rfl

/-- A block that opens inside a closed block is closed inside it. -/
theorem closeBlock_inner {b : Bracket} {d : Nat} {pre post body rest : List Token} {t : Token}
    (h : closeBlock b d (pre ++ t :: post) = some (body, rest)) (ht : t.kind = b.opener)
    (hin : pre.length < body.length) :
    ∃ (inner mid outer : List Token) (u : Token), closeBlock b 0 post = some (inner, mid) ∧
      u.kind = b.closer ∧ body = pre ++ t :: inner ++ u :: outer := by
  induction pre generalizing d body with
  | nil =>
    rw [List.nil_append, closeBlock_of_opener _ _ ht, ← Nat.zero_add (d + 1)] at h
    obtain ⟨⟨body', rest'⟩, hcut, hbody⟩ := Option.map_eq_some_iff.1 h
    cases hbody
    obtain ⟨inner, mid, outer, u, hinner, hu, rfl⟩ := closeBlock_add hcut
    exact ⟨inner, mid, outer, u, hinner, hu, rfl⟩
  | cons v pre ih =>
    rw [List.cons_append] at h
    obtain ⟨hc, rfl⟩ | ⟨d', hstep⟩ := closeBlock_cons_cases b d v
    · rw [closeBlock_zero_of_closer _ hc] at h
      cases h
      simp at hin
    · have hstep := hstep 0 (pre ++ t :: post)
      rw [Nat.add_zero] at hstep
      rw [hstep] at h
      obtain ⟨⟨body', rest'⟩, hcut, hbody⟩ := Option.map_eq_some_iff.1 h
      cases hbody
      obtain ⟨inner, mid, outer, u, hinner, hu, rfl⟩ := ih hcut (by simpa using hin)
      exact ⟨inner, mid, outer, u, hinner, hu, rfl⟩

theorem exists_of_leadingBlock? {br : Bracket} {ts body rest : List Token}
    (h : leadingBlock? br ts = some (body, rest)) :
    ∃ t u us, t.kind = br.opener ∧ u.kind = br.closer ∧ ts = t :: us ∧ us = body ++ u :: rest ∧
      closeBlock br 0 us = some (body, rest) := by
  cases ts with
  | nil => simp [leadingBlock?] at h
  | cons t us =>
    rw [leadingBlock?] at h
    split at h
    · next ht =>
      obtain ⟨u, hu, heq⟩ := closeBlock_eq_append h
      exact ⟨t, u, us, ht, hu, rfl, heq, h⟩
    · simp at h

/-- Of two blocks the one that begins later lies inside the other or behind it. The token `t`
stands before the later one. -/
theorem leadingBlock?_nested {br : Bracket} {pre post body rest inner tail : List Token}
    {t : Token} (h : leadingBlock? br (pre ++ t :: post) = some (body, rest))
    (ht : t.kind ≠ br.opener ∧ t.kind ≠ br.closer)
    (hinner : leadingBlock? br post = some (inner, tail)) :
    (∃ before u v after, u.kind = br.opener ∧ v.kind = br.closer ∧
        body = before ++ u :: inner ++ v :: after) ∨ ∃ gap, rest = gap ++ t :: post := by
  obtain ⟨o, c, us, ho, hc, heq, rfl, hclose⟩ := exists_of_leadingBlock? h
  obtain ⟨u, v, vs, hu, hv, rfl, -, hcloseInner⟩ := exists_of_leadingBlock? hinner
  cases pre with
  | nil =>
    rw [List.nil_append, List.cons.injEq] at heq
    rw [heq.1] at ht
    exact absurd ho ht.1
  | cons w pre =>
    rw [List.cons_append, List.cons.injEq] at heq
    rcases List.append_eq_append_iff.1 heq.2 with ⟨gap, rfl, hgap⟩ | ⟨gap, rfl, hgap⟩
    · -- the token `t` stands before the end of the first block, and so does `u`
      match gap, hgap with
      | [], hgap =>
        rw [List.nil_append, List.cons.injEq] at hgap
        rw [hgap.1] at ht
        exact absurd hc ht.2
      | [x], hgap =>
        simp only [List.cons_append, List.nil_append, List.cons.injEq] at hgap
        rw [hgap.2.1, hc] at hu
        exact absurd hu.symm br.opener_ne_closer
      | x :: y :: gap, hgap =>
        simp only [List.cons_append, List.cons.injEq] at hgap
        obtain ⟨rfl, rfl, rfl⟩ := hgap
        have hsplit : pre ++ t :: u :: gap ++ c :: rest =
            (pre ++ [t]) ++ u :: (gap ++ c :: rest) := by simp
        rw [hsplit] at hclose
        obtain ⟨inner', mid, after, v', hinner', hv', hbody⟩ :=
          closeBlock_inner hclose hu (by simp)
        rw [hcloseInner] at hinner'
        cases hinner'
        exact .inl ⟨pre ++ [t], u, v', after, hu, hv', hbody⟩
    · -- the token `t` stands behind the first block
      cases gap with
      | nil =>
        rw [List.nil_append, List.cons.injEq] at hgap
        rw [← hgap.1] at ht
        exact absurd hc ht.2
      | cons x gap =>
        rw [List.cons_append, List.cons.injEq] at hgap
        exact .inr ⟨gap, hgap.2⟩

end PhpImports
