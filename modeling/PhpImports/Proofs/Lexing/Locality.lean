import PhpImports.Proofs.Lexing.Cover
import PhpImports.Proofs.Lexing.Table

/-!
# PhpImports — text put in behind a statement

The tokens before a `;` or an opening brace do not change when text is put in behind it,
as long as that text has no `*` in it. For most tokens this is so because nothing they
could still become goes on over such a mark. The one exception is a `/` before a `*`: it
is an operator only because no `*/` comes later, and none must come in.

## Results

* `longest_insert` — the longest match before the mark.
* `lexeme_insert` — the token before the mark.
* `lexemesFrom_insert` — all tokens through the mark.
-/

namespace PhpImports

open Pattern Rule

-- ---------------------------------------------------------------------------
-- From a match to a token
-- ---------------------------------------------------------------------------

/-- Kind and length of the token that a match of `n` characters makes. -/
def lexemeOf (cs : List Char) (n : Nat) : Category → Kind × Nat
  | .comment => (commentKind (cs.take n), n)
  | .heredoc =>
    (.constantString, n + heredocBodyLength (heredocLabel (cs.take n)) true (cs.drop n))
  | .token k => (k, if k = .closeTag then n + lineBreakLength (cs.drop n) else n)

theorem codeLexeme_of_longest {cs : List Char} {k : Category} {n : Nat}
    (h : (longestMatch cs).longest = some (k, n)) : codeLexeme cs = lexemeOf cs n k := by
  unfold codeLexeme lexemeOf
  dsimp only
  rw [h]
  split
  · next heq => cases heq
  · next heq => cases heq; rfl
  · next heq => cases heq; rfl
  · next heq => cases heq; rfl
  · next hne heq =>
    cases heq
    dsimp only
    rw [if_neg hne]

theorem codeLexeme_of_none {cs : List Char} (h : (longestMatch cs).longest = none) :
    codeLexeme cs = (.error, max 1 (longestMatch cs).reach) := by
  unfold codeLexeme
  dsimp only
  rw [h]

/-- Whether only rules of a kind make tokens of that kind. -/
def Kind.isOwn : Kind → Bool
  | .docComment | .blockComment | .constantString | .error => false
  | _ => true

theorem eq_token_of_lexemeOf {cs : List Char} {n : Nat} {c : Category} {k : Kind}
    (hk : k.isOwn = true) (h : (lexemeOf cs n c).1 = k) : c = .token k := by
  cases c with
  | comment =>
    rw [lexemeOf, commentKind] at h
    split at h <;> · subst h; exact absurd hk (by simp [Kind.isOwn])
  | heredoc =>
    rw [lexemeOf] at h
    subst h
    exact absurd hk (by simp [Kind.isOwn])
  | token k' =>
    have hsame : k' = k := h
    rw [hsame]

/-- A token of such a kind is the longest match of a rule of that kind. -/
theorem exists_rule_of_codeLexeme {cs : List Char} {k : Kind} (hk : k.isOwn = true)
    (h : (codeLexeme cs).1 = k) :
    ∃ n r, 1 ≤ n ∧ codeLexeme cs = lexemeOf cs n (.token k) ∧ r ∈ rules ∧
      r.category = .token k ∧ r.pattern.Matches (cs.take n) := by
  cases hfound : (longestMatch cs).longest with
  | none =>
    rw [codeLexeme_of_none hfound] at h
    subst h
    exact absurd hk (by simp [Kind.isOwn])
  | some found =>
    obtain ⟨c, n⟩ := found
    obtain ⟨hpos, -, hcategory, -⟩ := longest_eq_iff.1 hfound
    have hlexeme := codeLexeme_of_longest hfound
    rw [hlexeme] at h
    cases eq_token_of_lexemeOf hk h
    obtain ⟨r, hr, hrcategory, hmatches⟩ := exists_rule_of_categoryOf? hcategory
    exact ⟨n, r, hpos, hlexeme, hr, hrcategory, hmatches⟩

theorem le_lexemeOf (cs : List Char) (n : Nat) (k : Category) : n ≤ (lexemeOf cs n k).2 := by
  cases k with
  | comment => exact Nat.le_refl _
  | heredoc => exact Nat.le_add_right _ _
  | token k =>
    show n ≤ if k = .closeTag then n + lineBreakLength (cs.drop n) else n
    split <;> omega

-- ---------------------------------------------------------------------------
-- Comments
-- ---------------------------------------------------------------------------

theorem commentEnd?_le {r : List Char} {e : Nat} (h : commentEnd? r = some e) :
    2 ≤ e ∧ e ≤ r.length ∧ commentEnd? (r.take e) = some e := by
  induction r generalizing e with
  | nil => simp [commentEnd?] at h
  | cons c r ih =>
    rw [commentEnd?] at h
    split at h
    · next hclose =>
      cases h
      cases r with
      | nil => simp at hclose
      | cons d r =>
        refine ⟨Nat.le_refl _, by simp, ?_⟩
        rw [List.take_succ_cons, commentEnd?, if_pos]
        simpa using hclose
    · next hopen =>
      obtain ⟨j, hj, rfl⟩ := Option.map_eq_some_iff.1 h
      obtain ⟨htwo, hle, htake⟩ := ih hj
      refine ⟨by omega, by simpa using hle, ?_⟩
      rw [List.take_succ_cons, commentEnd?, if_neg, htake]
      · rfl
      · -- the first characters are those of the whole text
        obtain ⟨i, rfl⟩ : ∃ i, j = i + 1 := ⟨j - 1, by omega⟩
        cases r with
        | nil => simp at hle
        | cons d r => simpa using hopen

theorem commentEnd?_append {z : List Char} {e : Nat} (h : commentEnd? z = some e)
    (y : List Char) : commentEnd? (z ++ y) = some e := by
  induction z generalizing e with
  | nil => simp [commentEnd?] at h
  | cons c z ih =>
    rw [commentEnd?] at h
    rw [List.cons_append, commentEnd?]
    have hne : z ≠ [] := by
      rintro rfl
      split at h
      · next hclose => simp at hclose
      · simp [commentEnd?] at h
    have hhead : (z ++ y).head? = z.head? := by
      cases z with
      | nil => exact absurd rfl hne
      | cons d z => rfl
    rw [hhead]
    split at h
    · next hclose => rw [if_pos hclose, h]
    · next hopen =>
      obtain ⟨j, hj, rfl⟩ := Option.map_eq_some_iff.1 h
      rw [if_neg hopen, ih hj]
      rfl

theorem commentEnd?_of_not_mem {w : List Char} (hw : '*' ∉ w) (x : List Char) :
    commentEnd? (w ++ x) = (commentEnd? x).map (· + w.length) := by
  induction w with
  | nil => simp
  | cons c w ih =>
    rw [List.mem_cons, not_or] at hw
    rw [List.cons_append, commentEnd?, if_neg (fun h => hw.1 h.1.symm), ih hw.2, Option.map_map]
    rfl

/-- A comment closed behind `d` is closed before it or behind it. -/
theorem isSome_commentEnd?_iff {d : Char} (hd : d ≠ '*') (v z : List Char) :
    (commentEnd? (v ++ d :: z)).isSome = true ↔
      (commentEnd? (v ++ [d])).isSome = true ∨ (commentEnd? z).isSome = true := by
  induction v with
  | nil => simp [commentEnd?, hd]
  | cons c v ih =>
    have hhead : (v ++ d :: z).head? = (v ++ [d]).head? := by cases v <;> rfl
    rw [List.cons_append, List.cons_append, commentEnd?, commentEnd?, hhead]
    split
    · simp
    · rw [Option.isSome_map, Option.isSome_map]
      exact ih

/-- Text without `*` behind `d` closes no comment. -/
theorem isSome_commentEnd?_insert {d : Char} (hd : d ≠ '*') {v w x : List Char} (hw : '*' ∉ w)
    (h : (commentEnd? (v ++ d :: (w ++ x))).isSome = true) :
    (commentEnd? (v ++ d :: x)).isSome = true := by
  rw [isSome_commentEnd?_iff hd, commentEnd?_of_not_mem hw, Option.isSome_map] at h
  exact (isSome_commentEnd?_iff hd v x).2 h

/-- No comment begins another one. -/
theorem eq_nil_of_matches_blockComment {a e : List Char} (h : blockComment.Matches a)
    (h' : blockComment.Matches (a ++ e)) : e = [] := by
  obtain ⟨v, rfl, hv⟩ := matches_blockComment_iff.1 h
  obtain ⟨v', heq, hv'⟩ := matches_blockComment_iff.1 h'
  simp only [List.cons_append, List.cons.injEq, true_and] at heq
  rw [← heq, commentEnd?_append hv, Option.some.injEq, List.length_append] at hv'
  exact List.length_eq_zero_iff.1 (by omega)

theorem matches_lineComment_take {s : String} {w : List Char} {j : Nat}
    (h : (seq (exactly s) restOfLine).Matches w) (hj : s.toList.length ≤ j) :
    (seq (exactly s) restOfLine).Matches (w.take j) := by
  obtain ⟨v, rfl, hv⟩ := matches_lineComment_iff.1 h
  refine matches_lineComment_iff.2 ⟨v.take (j - s.toList.length), ?_, ?_⟩
  · rw [List.take_append, List.take_of_length_le hj]
  · intro c hc
    exact hv c (List.mem_of_mem_take hc)

-- ---------------------------------------------------------------------------
-- The longest match
-- ---------------------------------------------------------------------------

section Insert

variable {c d : Char} {v w x : List Char}

/-- The texts with and without `w` agree through the mark `d`. -/
theorem take_insert {m : Nat} (hm : m ≤ v.length + 2) (y : List Char) :
    (c :: (v ++ d :: x)).take m = (c :: (v ++ d :: y)).take m := by
  have hsplit : ∀ z, c :: (v ++ d :: z) = (c :: (v ++ [d])) ++ z := by simp
  have hlen : (c :: (v ++ [d])).length = v.length + 2 := by simp
  rw [hsplit x, hsplit y, List.take_append_of_le_length (by omega),
    List.take_append_of_le_length (by omega)]

theorem take_over (y : List Char) (j : Nat) :
    (c :: (v ++ d :: y)).take (v.length + 2 + j) = c :: (v ++ d :: y.take j) := by
  rw [show c :: (v ++ d :: y) = (c :: (v ++ [d])) ++ y by simp,
    show v.length + 2 + j = (c :: (v ++ [d])).length + j by simp, List.take_length_add_append]
  simp

theorem exists_take_eq_append {cs : List Char} {n m : Nat} (hlt : n < m) (hle : m ≤ cs.length) :
    ∃ e, e ≠ [] ∧ cs.take m = cs.take n ++ e := by
  refine ⟨(cs.take m).drop n, ?_, ?_⟩
  · intro hnil
    have hlen := congrArg List.length hnil
    rw [List.length_drop, List.length_take, List.length_nil] at hlen
    omega
  · have hdrop := List.take_append_drop n (cs.take m)
    rw [List.take_take, Nat.min_eq_left (by omega)] at hdrop
    exact hdrop.symm

section Over

-- The longest match `n` before the mark, and a rule that matches `m` characters over it.
variable {k : Category} {n m : Nat} {r : Rule}
  (hlongest : IsLongest (c :: (v ++ d :: x)) (some (k, n))) (hn : n ≤ v.length + 1)
  (hm : v.length + 2 < m) (hmatches : r.pattern.Matches ((c :: (v ++ d :: (w ++ x))).take m))

include hlongest hn hm hmatches

/-- A comment to the end of the line would already go through the mark. -/
theorem not_lineComment_over (hr : r ∈ rules) {s : String} (hs : s.toList.length ≤ v.length + 2)
    (hpattern : r.pattern = seq (exactly s) restOfLine) : False := by
  obtain ⟨-, -, -, hlonger⟩ := hlongest
  rw [hpattern] at hmatches
  have hshort := matches_lineComment_take hmatches hs
  rw [List.take_take, Nat.min_eq_left (by omega), take_insert (Nat.le_refl _) x, ← hpattern]
    at hshort
  exact categoryOf?_ne_none hr hshort (hlonger _ (by omega) (by simp))

/-- A string was matched already, and does not begin a longer one. -/
theorem not_quoted_over (hle : m ≤ (c :: (v ++ d :: (w ++ x))).length) {mark : Char}
    (hmark : mark ∈ ['\x22', '\x27', '\x60']) (hpattern : r.pattern = quoted mark) : False := by
  obtain ⟨hpos, -, hk, -⟩ := hlongest
  obtain ⟨r', hr', -, hmatches'⟩ := exists_rule_of_categoryOf? hk
  rw [take_insert (by omega) (w ++ x)] at hmatches'
  rw [hpattern] at hmatches
  obtain ⟨i, rfl⟩ : ∃ i, n = i + 1 := ⟨n - 1, by omega⟩
  obtain ⟨j, rfl⟩ : ∃ j, m = j + 1 := ⟨m - 1, by omega⟩
  have hc : c = mark := by
    obtain ⟨u, heq, -⟩ := matches_quoted_iff.1 hmatches
    rw [List.take_succ_cons, List.cons.injEq] at heq
    exact heq.1
  subst hc
  have heq' : r' = ⟨.token .constantString, quoted c⟩ := eq_of_matches_mark hr' hmark hmatches'
  rw [heq'] at hmatches'
  obtain ⟨e, he, hstart⟩ := exists_take_eq_append (n := i + 1) (by omega) hle
  rw [hstart] at hmatches
  refine he (eq_nil_of_matches_quoted ?_ hmatches' hmatches)
  rintro rfl
  exact absurd hmark (by decide)

/-- A comment was matched already, or it is not closed in the text without `w` and so not
here. -/
theorem not_blockComment_over (hr : r ∈ rules) (hd : d ∈ [';', '\x7b'])
    (hle : m ≤ (c :: (v ++ d :: (w ++ x))).length) (hw : '*' ∉ w)
    (hpattern : r.pattern = blockComment) : False := by
  have hstar : d ≠ '*' := by
    rintro rfl
    exact absurd hd (by decide)
  obtain ⟨hpos, -, hk, hlonger⟩ := hlongest
  obtain ⟨r', hr', -, hmatches'⟩ := exists_rule_of_categoryOf? hk
  rw [take_insert (by omega) (w ++ x)] at hmatches'
  rw [hpattern] at hmatches
  have hover := hmatches
  obtain ⟨j, rfl⟩ : ∃ j, m = v.length + 2 + j := ⟨m - (v.length + 2), by omega⟩
  rw [take_over] at hover
  obtain ⟨z, heq, hz⟩ := matches_blockComment_iff.1 hover
  rw [List.cons.injEq] at heq
  obtain ⟨rfl, heq⟩ := heq
  cases v with
  | nil =>
    rw [List.nil_append, List.cons.injEq] at heq
    exact hstar heq.1
  | cons e v =>
    rw [List.cons_append, List.cons.injEq] at heq
    obtain ⟨rfl, rfl⟩ := heq
    by_cases hone : n = 1
    · -- only the `/` was matched, because no `*/` comes later
      have hclosed : (commentEnd? (v ++ d :: (w ++ x))).isSome = true := by
        have happend := commentEnd?_append hz ((w ++ x).drop j)
        rw [List.append_assoc, List.cons_append, List.take_append_drop] at happend
        rw [happend]
        rfl
      obtain ⟨e, he⟩ := Option.isSome_iff_exists.1 (isSome_commentEnd?_insert hstar hw hclosed)
      obtain ⟨htwo, hele, htake⟩ := commentEnd?_le he
      have hcomment : blockComment.Matches (('/' :: '*' :: (v ++ d :: x)).take (e + 2)) := by
        refine matches_blockComment_iff.2 ⟨(v ++ d :: x).take e, rfl, ?_⟩
        rw [htake, List.length_take, Nat.min_eq_left hele]
      rw [← hpattern] at hcomment
      refine categoryOf?_ne_none hr hcomment (hlonger (e + 2) (by omega) ?_)
      simpa using hele
    · obtain ⟨i, rfl⟩ : ∃ i, n = i + 2 := ⟨n - 2, by omega⟩
      have heq' : r' = ⟨.comment, blockComment⟩ := eq_of_matches_opening hr' hmatches'
      rw [heq'] at hmatches'
      obtain ⟨e, he, hstart⟩ := exists_take_eq_append (n := i + 2) (by omega) hle
      rw [hstart] at hmatches
      exact he (eq_nil_of_matches_blockComment hmatches' hmatches)

end Over

theorem longest_insert {k : Category} {n : Nat} (hd : d ∈ [';', '\x7b']) (hw : '*' ∉ w)
    (h : (longestMatch (c :: (v ++ d :: x))).longest = some (k, n)) (hn : n ≤ v.length + 1) :
    (longestMatch (c :: (v ++ d :: (w ++ x)))).longest = some (k, n) := by
  rw [longest_eq_iff] at h ⊢
  have hlongest := h
  obtain ⟨hpos, -, hk, hlonger⟩ := h
  have hsame : ∀ {m}, m ≤ v.length + 2 →
      (c :: (v ++ d :: (w ++ x))).take m = (c :: (v ++ d :: x)).take m :=
    fun hm => take_insert hm _
  refine ⟨hpos, by simp; omega, by rw [hsame (by omega), hk], ?_⟩
  intro m hlt hle
  rw [categoryOf?_eq_none_iff]
  intro r hr hmatches
  by_cases hm : m ≤ v.length + 2
  · -- the longer match lies before the mark, where the texts agree
    rw [hsame hm] at hmatches
    exact categoryOf?_ne_none hr hmatches (hlonger m hlt (by simp; omega))
  · -- it goes on over the mark, so it is a comment or a string
    have hover : v.length + 2 < m := by omega
    have htext : r ∈ textRules := by
      obtain ⟨j, rfl⟩ : ∃ j, m = v.length + 2 + j := ⟨m - (v.length + 2), by omega⟩
      rw [take_over] at hmatches
      refine mem_textRules hr hmatches (d := d) (by simp) ?_
      simp only [List.mem_cons, List.not_mem_nil, or_false] at hd ⊢
      exact hd.imp_right .inl
    simp only [textRules, List.mem_cons, List.not_mem_nil, or_false] at htext
    rcases htext with rfl | rfl | rfl | rfl | rfl | rfl
    · exact not_lineComment_over hlongest hn hover hmatches hr (s := "//") (by simp) rfl
    · exact not_lineComment_over hlongest hn hover hmatches hr (s := "#") (by simp) rfl
    · exact not_blockComment_over hlongest hn hover hmatches hr hd hle hw rfl
    · exact not_quoted_over hlongest hn hover hmatches hle (by decide) rfl
    · exact not_quoted_over hlongest hn hover hmatches hle (by decide) rfl
    · exact not_quoted_over hlongest hn hover hmatches hle (by decide) rfl

-- ---------------------------------------------------------------------------
-- What the lexer looks at besides
-- ---------------------------------------------------------------------------

theorem dropWhile_append_eq {p : Char → Bool} {a b : List Char} (ha : ∀ c ∈ a, p c = true)
    (hb : ∀ c ∈ b.head?, p c = false) : (a ++ b).dropWhile p = b := by
  rw [List.dropWhile_append_of_pos ha]
  cases b with
  | nil => rfl
  | cons c b => rw [List.dropWhile_cons_of_neg (by simp [hb c rfl])]

theorem takeWhile_append_eq {p : Char → Bool} {a b : List Char} (ha : ∀ c ∈ a, p c = true)
    (hb : ∀ c ∈ b.head?, p c = false) : (a ++ b).takeWhile p = a := by
  rw [List.takeWhile_append_of_pos ha]
  cases b with
  | nil => simp
  | cons c b => rw [List.takeWhile_cons_of_neg (by simp [hb c rfl]), List.append_nil]

theorem dropWhile_append_cons {p : Char → Bool} (hd : p d = false) (z y : List Char) :
    (z ++ d :: y).dropWhile p = z.dropWhile p ++ d :: y := by
  rw [List.dropWhile_append, List.dropWhile_cons_of_neg (by simp [hd])]
  split
  · next hempty =>
    rw [List.isEmpty_iff.1 hempty]
    rfl
  · rfl

theorem takeWhile_append_cons {p : Char → Bool} (hd : p d = false) (z y : List Char) :
    (z ++ d :: y).takeWhile p = z.takeWhile p := by
  rw [List.takeWhile_append, List.takeWhile_cons_of_neg (by simp [hd]), List.append_nil]
  split
  · next hlength => exact ((List.takeWhile_sublist p).eq_of_length hlength).symm
  · rfl

theorem isPrefixOf_append_cons {label z : List Char} (y : List Char) (hd : d ∉ label) :
    label.isPrefixOf (z ++ d :: y) = label.isPrefixOf z := by
  induction label generalizing z with
  | nil => simp
  | cons l label ih =>
    rw [List.mem_cons, not_or] at hd
    cases z with
    | nil =>
      have hne : (l == d) = false := by
        rw [beq_eq_false_iff_ne]
        exact fun h => hd.1 h.symm
      rw [List.nil_append, List.isPrefixOf_cons_cons, hne]
      rfl
    | cons a z =>
      rw [List.cons_append, List.isPrefixOf_cons_cons, List.isPrefixOf_cons_cons, ih hd.2]

/-- A line before the mark closes a heredoc or not, whatever comes behind the mark. -/
theorem closingLabel?_congr {label : List Char} (hd : d ∈ [';', '\x7b'])
    (hlabel : ∀ l ∈ label, isWordChar l = true) (z x y : List Char) :
    closingLabel? label (z ++ d :: y) = closingLabel? label (z ++ d :: x) := by
  have hword : isWordChar d = false := by
    simp only [List.mem_cons, List.not_mem_nil, or_false] at hd
    rcases hd with rfl | rfl <;> decide
  have hindent : isIndent d = false := by
    simp only [List.mem_cons, List.not_mem_nil, or_false] at hd
    rcases hd with rfl | rfl <;> decide
  have hnot : d ∉ label := by
    intro hmem
    rw [hlabel d hmem] at hword
    exact absurd hword (by simp)
  unfold closingLabel?
  dsimp only
  rw [dropWhile_append_cons hindent, dropWhile_append_cons hindent, takeWhile_append_cons hindent,
    takeWhile_append_cons hindent, isPrefixOf_append_cons y hnot, isPrefixOf_append_cons x hnot]
  by_cases hstart : label.isPrefixOf (z.dropWhile isIndent) = true
  · -- the character after the label is the same one
    have hlen := (List.isPrefixOf_iff_prefix.1 hstart).length_le
    rw [List.drop_append_of_le_length hlen, List.drop_append_of_le_length hlen]
    cases (z.dropWhile isIndent).drop label.length <;> rfl
  · rw [Bool.not_eq_true] at hstart
    rw [hstart]
    rfl

theorem heredocBodyLength_congr {label : List Char} (hd : d ∈ [';', '\x7b'])
    (hlabel : ∀ l ∈ label, isWordChar l = true) {lineStart : Bool} {z : List Char}
    (y : List Char) (h : heredocBodyLength label lineStart (z ++ d :: x) ≤ z.length) :
    heredocBodyLength label lineStart (z ++ d :: y) =
      heredocBodyLength label lineStart (z ++ d :: x) := by
  induction z generalizing lineStart with
  | nil =>
    have hcongr : closingLabel? label (d :: y) = closingLabel? label (d :: x) :=
      closingLabel?_congr hd hlabel [] x y
    rw [List.nil_append, heredocBodyLength] at h
    rw [List.nil_append, List.nil_append, heredocBodyLength, heredocBodyLength, hcongr]
    split
    · rfl
    · next hnone =>
      rw [hnone] at h
      simp at h
  | cons a z ih =>
    have hcongr : closingLabel? label (a :: (z ++ d :: y)) =
        closingLabel? label (a :: (z ++ d :: x)) :=
      closingLabel?_congr hd hlabel (a :: z) x y
    rw [List.cons_append, heredocBodyLength] at h
    rw [List.cons_append, List.cons_append, heredocBodyLength, heredocBodyLength, hcongr]
    split
    · rfl
    · next hnone =>
      rw [hnone] at h
      dsimp only at h
      rw [ih (by rw [List.length_cons] at h; omega)]

theorem lineBreakLength_congr (hd : d ∈ [';', '\x7b']) (z x y : List Char) :
    lineBreakLength (z ++ d :: y) = lineBreakLength (z ++ d :: x) := by
  simp only [List.mem_cons, List.not_mem_nil, or_false] at hd
  match z with
  | [] => rcases hd with rfl | rfl <;> rfl
  | [a] =>
    have hne : d ≠ '\n' := by rcases hd with rfl | rfl <;> decide
    unfold lineBreakLength
    simp only [List.cons_append, List.nil_append]
    split <;> split <;> simp_all
  | a :: b :: z =>
    unfold lineBreakLength
    simp only [List.cons_append]
    split <;> split <;> simp_all

theorem opensCode_iff {cs : List Char} : opensCode cs = true ↔
    (∃ r, cs = '<' :: '?' :: '=' :: r) ∨
      ∃ p h q r, cs = '<' :: '?' :: p :: h :: q :: r ∧ p.toLower = 'p' ∧ h.toLower = 'h' ∧
        q.toLower = 'p' ∧ r.head?.all isBlank = true := by
  unfold opensCode
  split
  · exact ⟨fun _ => .inl ⟨_, rfl⟩, fun _ => rfl⟩
  · next p h q r hne =>
    simp only [Bool.and_eq_true, beq_iff_eq]
    constructor
    · rintro ⟨⟨⟨hp, hh⟩, hq⟩, hr⟩
      exact .inr ⟨p, h, q, r, rfl, hp, hh, hq, hr⟩
    · rintro (⟨r', heq⟩ | ⟨p', h', q', r', heq, hp, hh, hq, hr⟩)
      · simp only [List.cons.injEq, true_and] at heq
        exact absurd heq.1 (fun hp => hne hp)
      · simp only [List.cons.injEq, true_and] at heq
        obtain ⟨rfl, rfl, rfl, rfl⟩ := heq
        exact ⟨⟨⟨hp, hh⟩, hq⟩, hr⟩
  · next hecho htag =>
    refine ⟨fun h => absurd h (by simp), ?_⟩
    rintro (⟨r, rfl⟩ | ⟨p, h, q, r, rfl, -⟩)
    · exact absurd rfl (hecho r)
    · exact absurd rfl (htag p h q r)

/-- An open tag before the mark is one, whatever comes behind the mark. -/
theorem opensCode_congr (hd : d ∈ [';', '\x7b']) (z x y : List Char) :
    opensCode (z ++ d :: y) = opensCode (z ++ d :: x) := by
  have hnot : d ≠ '<' ∧ d ≠ '?' ∧ d ≠ '=' ∧ d.toLower ≠ 'p' ∧ d.toLower ≠ 'h' := by
    simp only [List.mem_cons, List.not_mem_nil, or_false] at hd
    rcases hd with rfl | rfl <;> decide
  have himp : ∀ x y, opensCode (z ++ d :: x) = true → opensCode (z ++ d :: y) = true := by
    intro x y hopens
    rw [opensCode_iff] at hopens ⊢
    rcases hopens with ⟨r, heq⟩ | ⟨p, h, q, r, heq, hp, hh, hq, hr⟩
    · -- the mark is none of the characters of the tag
      match z with
      | [] | [a] | [a, b] => simp_all
      | a :: b :: p :: z =>
        simp only [List.cons_append, List.cons.injEq] at heq
        obtain ⟨rfl, rfl, rfl, -⟩ := heq
        exact .inl ⟨z ++ d :: y, rfl⟩
    · match z with
      | [] | [a] | [a, b] | [a, b, _] | [a, b, _, _] => simp_all
      | a :: b :: p' :: h' :: q' :: z =>
        simp only [List.cons_append, List.cons.injEq] at heq
        obtain ⟨rfl, rfl, rfl, rfl, rfl, rfl⟩ := heq
        refine .inr ⟨p', h', q', z ++ d :: y, rfl, hp, hh, hq, ?_⟩
        cases z with
        | nil => exact hr
        | cons e z => exact hr
  rw [Bool.eq_iff_iff]
  exact ⟨himp y x, himp x y⟩

theorem markupLength_congr (hd : d ∈ [';', '\x7b']) {z : List Char} (y : List Char)
    (h : markupLength (z ++ d :: x) ≤ z.length) :
    markupLength (z ++ d :: y) = markupLength (z ++ d :: x) := by
  induction z with
  | nil =>
    have hopens : ∀ t, opensCode (d :: t) = false := by
      intro t
      simp only [List.mem_cons, List.not_mem_nil, or_false] at hd
      rcases hd with rfl | rfl <;> rfl
    rw [List.nil_append, markupLength, hopens] at h
    simp at h
  | cons a z ih =>
    have hcongr := opensCode_congr hd (a :: z) x y
    rw [List.cons_append, List.cons_append] at hcongr
    rw [List.cons_append, markupLength] at h
    rw [List.cons_append, List.cons_append, markupLength, markupLength, hcongr]
    split
    · rfl
    · next hclosed =>
      rw [if_neg hclosed, List.length_cons] at h
      rw [ih (by omega)]

-- ---------------------------------------------------------------------------
-- Tokens
-- ---------------------------------------------------------------------------

theorem isWordChar_of_mem_heredocLabel {opener : List Char} {l : Char}
    (h : l ∈ heredocLabel opener) : isWordChar l = true :=
  List.all_eq_true.1 List.all_takeWhile l h

theorem drop_insert {m : Nat} (hm : m ≤ v.length + 1) (y : List Char) :
    (c :: (v ++ d :: y)).drop m = (c :: v).drop m ++ d :: y := by
  rw [← List.cons_append, List.drop_append_of_le_length hm]

theorem lexemeOf_insert {k : Category} {m : Nat} (hd : d ∈ [';', '\x7b'])
    (hle : (lexemeOf (c :: (v ++ d :: x)) m k).2 ≤ v.length + 1) (y : List Char) :
    lexemeOf (c :: (v ++ d :: y)) m k = lexemeOf (c :: (v ++ d :: x)) m k := by
  have hm : m ≤ v.length + 1 := Nat.le_trans (le_lexemeOf _ _ _) hle
  have htake : (c :: (v ++ d :: y)).take m = (c :: (v ++ d :: x)).take m :=
    take_insert (by omega) _
  cases k with
  | comment => rw [lexemeOf, lexemeOf, htake]
  | heredoc =>
    rw [lexemeOf, drop_insert hm] at hle
    rw [lexemeOf, lexemeOf, htake, drop_insert hm, drop_insert hm]
    rw [heredocBodyLength_congr hd (fun l hl => isWordChar_of_mem_heredocLabel hl) y]
    rw [List.length_drop, List.length_cons]
    dsimp only at hle
    omega
  | token k =>
    rw [lexemeOf, lexemeOf, drop_insert hm, drop_insert hm, lineBreakLength_congr hd _ x y]

theorem codeLexeme_insert {k : Kind} {n : Nat} (hd : d ∈ [';', '\x7b']) (hw : '*' ∉ w)
    (h : codeLexeme (c :: (v ++ d :: x)) = (k, n)) (hn : n ≤ v.length + 1) :
    codeLexeme (c :: (v ++ d :: (w ++ x))) = (k, n) := by
  cases hfound : (longestMatch (c :: (v ++ d :: x))).longest with
  | none =>
    -- the reading ended before the mark
    rw [codeLexeme_of_none hfound, Prod.mk.injEq] at h
    have hsplit : ∀ y, c :: (v ++ d :: y) = (c :: (v ++ [d])) ++ y := by simp
    have hreach : (longestMatch ((c :: (v ++ [d])) ++ x)).reach < (c :: (v ++ [d])).length := by
      rw [← hsplit, List.length_cons, List.length_append, List.length_singleton]
      omega
    have hcongr := longestMatch_congr (w ++ x) hreach
    rw [← hsplit, ← hsplit] at hcongr
    rw [codeLexeme_of_none (by rw [hcongr, hfound]), hcongr, Prod.mk.injEq]
    exact h
  | some found =>
    obtain ⟨cat, m⟩ := found
    rw [codeLexeme_of_longest hfound] at h
    have hle : (lexemeOf (c :: (v ++ d :: x)) m cat).2 ≤ v.length + 1 := by
      rw [h]
      exact hn
    have hm := le_lexemeOf (c :: (v ++ d :: x)) m cat
    rw [codeLexeme_of_longest (longest_insert hd hw hfound (by omega)),
      lexemeOf_insert hd hle, h]

theorem lexeme_insert {mode : Mode} {k : Kind} {n : Nat} (hd : d ∈ [';', '\x7b'])
    (hw : '*' ∉ w) (h : lexeme mode (c :: (v ++ d :: x)) = (k, n)) (hn : n ≤ v.length + 1) :
    lexeme mode (c :: (v ++ d :: (w ++ x))) = (k, n) := by
  cases mode with
  | code => exact codeLexeme_insert hd hw h hn
  | markup =>
    have hcongr : markupLength (c :: (v ++ d :: x)) ≤ v.length + 1 →
        markupLength (c :: (v ++ d :: (w ++ x))) = markupLength (c :: (v ++ d :: x)) :=
      markupLength_congr (z := c :: v) hd (w ++ x)
    rw [lexeme] at h ⊢
    cases hmarkup : markupLength (c :: (v ++ d :: x)) with
    | zero =>
      rw [hmarkup] at h hcongr
      rw [hcongr (Nat.zero_le _)]
      exact codeLexeme_insert hd hw h hn
    | succ m =>
      rw [hmarkup] at h hcongr
      rw [hcongr]
      · exact h
      · have hsnd : m + 1 = n := congrArg Prod.snd h
        omega

end Insert

-- ---------------------------------------------------------------------------
-- All tokens through the mark
-- ---------------------------------------------------------------------------

theorem filter_category_marks : ∀ m ∈ marks,
    punctuation.filter (fun r => r.category = .token m.2) =
      [⟨.token m.2, seq (char m.1) empty⟩] := by
  simp only [marks, List.mem_cons, List.not_mem_nil, or_false]
  rintro m (rfl | rfl | rfl) <;> rfl

theorem category_ne_marks : ∀ m ∈ marks, ∀ r ∈ tags ++ keywords ++ operators ++ openRules,
    r.category ≠ .token m.2 := by
  decide

/-- A token with the kind of a mark begins with that mark. -/
theorem eq_of_category_mark {r : Rule} (hr : r ∈ rules) {c d : Char} {k : Kind} {w : List Char}
    (hm : (d, k) ∈ marks) (hk : r.category = .token k) (h : r.pattern.Matches (c :: w)) :
    c = d := by
  have hnot : r ∉ tags ++ keywords ++ operators ++ openRules :=
    fun hmem => category_ne_marks (d, k) hm r hmem hk
  have hpunct : r ∈ punctuation := by
    simp only [List.mem_append, not_or] at hnot
    simp only [rules, literalRules, List.mem_append, hnot, false_or, or_false] at hr
    exact hr
  have hone : r ∈ punctuation.filter (fun r => r.category = .token k) :=
    List.mem_filter.2 ⟨hpunct, by simpa using hk⟩
  rw [filter_category_marks (d, k) hm, List.mem_singleton] at hone
  subst hone
  simpa [begins, char] using begins_of_matches h

theorem isOwn_marks : ∀ m ∈ marks, m.2.isOwn = true := by
  decide

theorem eq_of_codeLexeme_mark {c d : Char} {cs : List Char} {k : Kind} (hm : (d, k) ∈ marks)
    (h : (codeLexeme (c :: cs)).1 = k) : c = d := by
  obtain ⟨n, r, hpos, -, hr, hcategory, hmatches⟩ :=
    exists_rule_of_codeLexeme (isOwn_marks (d, k) hm) h
  obtain ⟨i, rfl⟩ : ∃ i, n = i + 1 := ⟨n - 1, by omega⟩
  rw [List.take_succ_cons] at hmatches
  exact eq_of_category_mark hr hm hcategory hmatches

theorem lexeme_mark {c : Char} {k : Kind} (hm : (c, k) ∈ marks) (cs : List Char) :
    lexeme .code (c :: cs) = (k, 1) := by
  show codeLexeme (c :: cs) = (k, 1)
  rw [codeLexeme_of_longest (longest_mark hm cs), lexemeOf, if_neg]
  rintro rfl
  exact absurd hm (by simp [marks])

/-- A token with the kind of a mark is that mark, and stands in code. -/
theorem eq_of_lexeme_mark {mode : Mode} {c d : Char} {cs : List Char} {k : Kind}
    (hm : (d, k) ∈ marks) (h : (lexeme mode (c :: cs)).1 = k) : mode = .code ∧ c = d := by
  cases mode with
  | code => exact ⟨rfl, eq_of_codeLexeme_mark hm h⟩
  | markup =>
    exfalso
    rw [lexeme] at h
    cases hmarkup : markupLength (c :: cs) with
    | zero =>
      -- an open tag does not begin with the mark
      rw [hmarkup] at h
      have hc := eq_of_codeLexeme_mark hm h
      have hopens : opensCode (c :: cs) = true := by
        rw [markupLength] at hmarkup
        split at hmarkup
        · next hopens => exact hopens
        · exact absurd hmarkup (Nat.succ_ne_zero _)
      have hlt : c = '<' := by
        rcases opensCode_iff.1 hopens with ⟨r, heq⟩ | ⟨p, q, r, t, heq, -⟩
        · exact (List.cons.inj heq).1
        · exact (List.cons.inj heq).1
      rw [← hc, hlt] at hm
      simp [marks] at hm
    | succ m =>
      rw [hmarkup] at h
      have hk : Kind.inlineHtml = k := h
      subst hk
      exact absurd hm (by simp [marks])

/-- The marks that end statements and declarations. -/
theorem mem_marks_of_kind {k : Kind} (hk : k = .semicolon ∨ k = .lBrace) :
    ∃ d, (d, k) ∈ marks ∧ d ∈ [';', '\x7b'] := by
  rcases hk with rfl | rfl
  · exact ⟨';', by decide, by decide⟩
  · exact ⟨'\x7b', by decide, by decide⟩

/-- Text without `*` that is put in behind a `;` or an opening brace changes no token through
that mark. -/
theorem lexemesFrom_insert {mode : Mode} {cs : List Char} {pre post : List Token} {t : Token}
    (h : lexemesFrom mode 0 cs = pre ++ t :: post)
    (ht : t.kind = .semicolon ∨ t.kind = .lBrace) :
    ∃ a d rest, cs = a ++ d :: rest ∧ d ∈ [';', '\x7b'] ∧ lexemesFrom .code 0 rest = post ∧
      ∀ w, '*' ∉ w → lexemesFrom mode 0 (a ++ d :: (w ++ rest)) =
        pre ++ t :: lexemesFrom .code 0 (w ++ rest) := by
  induction pre generalizing mode cs with
  | nil =>
    obtain ⟨d, hm, hd⟩ := mem_marks_of_kind ht
    cases cs with
    | nil => simp [lexemesFrom] at h
    | cons c cs =>
      rw [lexemesFrom_eq, List.nil_append, List.cons.injEq] at h
      obtain ⟨htoken, htail⟩ := h
      have hkind : (lexeme mode (c :: cs)).1 = t.kind := by rw [← htoken]
      obtain ⟨rfl, rfl⟩ := eq_of_lexeme_mark hm hkind
      rw [lexeme_mark hm] at htoken htail
      have hafter : Mode.after t.kind = .code := by
        rcases ht with ht | ht <;> rw [ht] <;> rfl
      refine ⟨[], c, cs, rfl, hd, ?_, ?_⟩
      · rw [← htail, hafter]
        rfl
      · intro w _
        rw [List.nil_append, lexemesFrom_eq, lexeme_mark hm, List.nil_append, List.cons.injEq]
        refine ⟨htoken, ?_⟩
        rw [hafter]
        rfl
  | cons p pre ih =>
    cases cs with
    | nil => simp [lexemesFrom] at h
    | cons c cs =>
      have hpos := one_le_lexeme mode c cs
      rw [lexemesFrom_eq, List.cons_append, List.cons.injEq] at h
      obtain ⟨htoken, htail⟩ := h
      obtain ⟨a, d, rest, hcs, hd, hpost, hinsert⟩ := ih htail
      generalize hlexeme : lexeme mode (c :: cs) = kn at htoken htail hcs hpos hinsert
      obtain ⟨k, n⟩ := kn
      obtain ⟨i, rfl⟩ : ∃ i, n = i + 1 := ⟨n - 1, (Nat.sub_add_cancel hpos).symm⟩
      simp only [List.drop_succ_cons, List.take_succ_cons] at hcs htoken
      -- the first token, then the tokens up to the mark, then the rest
      have hsplit : ∀ y, c :: ((cs.take i ++ a) ++ d :: y) = (c :: cs.take i) ++ (a ++ d :: y) := by
        simp
      have hwhole : c :: cs = c :: ((cs.take i ++ a) ++ d :: rest) := by
        rw [hsplit, ← hcs, List.cons_append, List.take_append_drop]
      have hlen : (cs.take i).length = i := by
        have hle := lexeme_le mode c cs
        rw [hlexeme, List.length_cons] at hle
        rw [List.length_take]
        dsimp only at hle
        omega
      refine ⟨c :: (cs.take i ++ a), d, rest, hwhole, hd, hpost, ?_⟩
      intro w hw
      rw [hwhole] at hlexeme
      have hsame := lexeme_insert hd hw hlexeme (by rw [List.length_append]; omega)
      rw [List.cons_append, lexemesFrom_eq, hsame, hsplit, List.take_left' (by simp [hlen]),
        List.drop_left' (by simp [hlen]), hinsert w hw, htoken]
      rfl

end PhpImports
