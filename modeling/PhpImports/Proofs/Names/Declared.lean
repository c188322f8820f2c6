import Mathlib.Data.List.Forall2
import PhpImports.Proofs.Names.UsedAt

/-!
# PhpImports — which declarations are reported

The scan for declared types jumps behind the body of each declaration it reports, and so it never
compares a declaration with one that it has passed over. Here the reported declarations are
described by their places alone: a declaration is reported if it lies in no earlier one, be that
reported or not. The two agree because a declaration inside another ends inside it, as long as the
first brace behind the name of each opens a block.

## Results

* `TokenSeq.DeclaresAt`, `TokenSeq.regionEnd` — a declaration and the end of its region.
* `TokenSeq.IsOutermost` — a place in no earlier declaration.
* `TokenSeq.regionEnd_le` — a declaration inside another ends inside it.
* `TokenSeq.declaredFrom_of_declaresAt`, `TokenSeq.declaredFrom_of_not` — one step of the scan.
* `TokenSeq.declaredTypes_eq_outermost` — the names reported by the whole scan.
-/

namespace PhpImports

theorem Kind.isMeaningful_of_isTypeDeclaration {k : Kind} (h : k.isTypeDeclaration = true) :
    k.isMeaningful = true := by
  cases k with
  | keyword w => rfl
  | _ => simp [Kind.isTypeDeclaration] at h

namespace TokenSeq

variable {s : TokenSeq}

-- ---------------------------------------------------------------------------
-- Declarations in their places
-- ---------------------------------------------------------------------------

/-- A type is declared at position `k`, and its name stands at position `n`. -/
structure DeclaresAt (s : TokenSeq) (k n : Nat) : Prop where
  keyword : ∃ w, s.kindAt? k = some w ∧ w.isTypeDeclaration = true
  next : s.nextMeaningful? k = some n
  name : s.kindAt? n = some .identifier

instance (s : TokenSeq) (k n : Nat) : Decidable (s.DeclaresAt k n) :=
  decidable_of_iff
    ((s.kindAt? k).any Kind.isTypeDeclaration = true ∧ s.nextMeaningful? k = some n ∧
      s.kindAt? n = some .identifier)
    ⟨fun ⟨hk, hn, hname⟩ => ⟨(Option.any_eq_true _ _).1 hk, hn, hname⟩,
      fun h => ⟨(Option.any_eq_true _ _).2 h.keyword, h.next, h.name⟩⟩

theorem DeclaresAt.lt_length {k n : Nat} (h : s.DeclaresAt k n) : k < s.length := by
  obtain ⟨hlt, hn, -⟩ := next?_eq_some_iff.1 h.next
  exact Nat.lt_trans hlt (lt_length_of_any hn)

/-- Where the declaration ends whose name stands at `n`: at the bracket that closes the block of
the first `{` behind the name, or with the name if that is missing or never closed. -/
def regionEnd (s : TokenSeq) (n : Nat) : Nat :=
  ((s.nextOfKind? [.lBrace] n).bind (s.blockEnd? .curly)).getD n

/-- Position `k` lies in no declaration that begins before it. -/
def IsOutermost (s : TokenSeq) (k : Nat) : Prop :=
  ∀ j n, s.DeclaresAt j n → j < k → s.regionEnd n < k

/-- The first brace behind the name of a declaration opens a block, if there is one. -/
def BodiesOpen (s : TokenSeq) : Prop :=
  ∀ k n b, s.DeclaresAt k n → s.nextOfKind? [.lBrace, .rBrace] n = some b →
    s.kindAt? b = some .lBrace

instance (s : TokenSeq) : Decidable s.BodiesOpen :=
  decidable_of_iff
    (∀ k < s.length, ∀ n ∈ s.nextMeaningful? k, s.DeclaresAt k n →
      ∀ b ∈ s.nextOfKind? [.lBrace, .rBrace] n, s.kindAt? b = some .lBrace)
    ⟨fun h k n b hn hb => h k hn.lt_length n hn.next hn b hb,
      fun h k _ n _ hn b hb => h k n b hn hb⟩

theorem DeclaresAt.ne_of_kindAt? {k n x : Nat} {a : Kind} (h : s.DeclaresAt k n)
    (hx : s.kindAt? x = some a) (ha : a.isTypeDeclaration = false) : k ≠ x := by
  rintro rfl
  obtain ⟨w, hw, hdeclares⟩ := h.keyword
  rw [hx, Option.some.injEq] at hw
  rw [← hw, ha] at hdeclares
  exact Bool.noConfusion hdeclares

/-- Between the keyword of a declaration and its name there is trivia only. -/
theorem DeclaresAt.name_lt_of_kindAt? {k n x : Nat} {a : Kind} (h : s.DeclaresAt k n) (hlt : k < x)
    (hx : s.kindAt? x = some a) (hseen : a.isMeaningful = true) (ha : a ≠ .identifier) : n < x := by
  have hle := nextMeaningful?_le h.next hlt hx hseen
  have hne : n ≠ x := by
    rintro rfl
    exact ha (Option.some.inj (hx.symm.trans h.name))
  omega

/-- So there is no other declaration. -/
theorem DeclaresAt.name_lt {i n j m : Nat} (hi : s.DeclaresAt i n) (hj : s.DeclaresAt j m)
    (hlt : i < j) : n < j := by
  obtain ⟨w, hw, hdeclares⟩ := hj.keyword
  refine hi.name_lt_of_kindAt? hlt hw (Kind.isMeaningful_of_isTypeDeclaration hdeclares) ?_
  rintro rfl
  simp [Kind.isTypeDeclaration] at hdeclares

/-- Where a declaration ends: with its name, or with its body. -/
theorem regionEnd_cases (s : TokenSeq) (n : Nat) :
    s.regionEnd n = n ∨
      ∃ o, s.nextOfKind? [.lBrace] n = some o ∧ s.blockEnd? .curly o = some (s.regionEnd n) := by
  rw [regionEnd]
  cases hopen : s.nextOfKind? [.lBrace] n with
  | none => exact .inl rfl
  | some o =>
    rw [Option.bind_some]
    cases hclose : s.blockEnd? .curly o with
    | none => exact .inl rfl
    | some c => exact .inr ⟨o, rfl, hclose⟩

theorem regionEnd_eq {n o c : Nat} (ho : s.nextOfKind? [.lBrace] n = some o)
    (hc : s.blockEnd? .curly o = some c) : s.regionEnd n = c := by
  rw [regionEnd, ho, Option.bind_some, hc, Option.getD_some]

/-- A declaration inside another ends inside it. -/
theorem regionEnd_le (h : s.BodiesOpen) {i n j m : Nat} (hi : s.DeclaresAt i n)
    (hj : s.DeclaresAt j m) (hlt : i < j) (hle : j ≤ s.regionEnd n) :
    s.regionEnd m ≤ s.regionEnd n := by
  have hnj := hi.name_lt hj hlt
  rcases s.regionEnd_cases n with hname | ⟨o, ho, hc⟩
  · -- the outer declaration is no more than a keyword and a name
    omega
  obtain ⟨hopener, hcloser⟩ := kindAt?_of_blockEnd? hc
  obtain ⟨hno, -, hbetween⟩ := nextOfKind?_eq_some_iff.1 ho
  have hjm := (next?_eq_some_iff.1 hj.next).1
  rcases Nat.lt_or_ge j o with hjo | hoj
  · -- both have the same body
    have hmo := hj.name_lt_of_kindAt? hjo hopener rfl nofun
    have ho' : s.nextOfKind? [.lBrace] m = some o :=
      nextOfKind?_eq_some_iff.2 ⟨hmo, ⟨_, List.mem_singleton_self _, hopener⟩,
        fun x hx hxo => hbetween x (by omega) hxo⟩
    exact Nat.le_of_eq (regionEnd_eq ho' hc)
  · -- the inner one lies in the body of the outer, and so does the brace that opens its own
    have hoj : o < j := by
      have := hj.ne_of_kindAt? hopener rfl
      omega
    have hjc : j < s.regionEnd n := by
      have := hj.ne_of_kindAt? hcloser rfl
      omega
    have hmc := hj.name_lt_of_kindAt? hjc hcloser rfl nofun
    have hcurly : Bracket.curly.closer ∈ [Kind.lBrace, .rBrace] := by decide
    obtain ⟨b, hb, hbc⟩ := exists_nextOfKind? hmc hcurly hcloser
    have hbopen := h j m b hj hb
    obtain ⟨hmb, -, hfirst⟩ := nextOfKind?_eq_some_iff.1 hb
    have hbne : b ≠ s.regionEnd n := by
      rintro rfl
      rw [hcloser] at hbopen
      cases hbopen
    have hb' : s.nextOfKind? [.lBrace] m = some b :=
      nextOfKind?_eq_some_iff.2 ⟨hmb, ⟨_, List.mem_singleton_self _, hbopen⟩,
        fun x hx hxb k hk => hfirst x hx hxb k (List.mem_cons.2 (.inl (List.mem_singleton.1 hk)))⟩
    obtain ⟨e, he, hec⟩ := blockEnd?_nested hc (by omega) (by omega) hbopen
    rw [regionEnd_eq hb' he]
    exact Nat.le_of_lt hec

/-- A declaration ends with its name at the soonest, and so behind its keyword. -/
theorem DeclaresAt.lt_regionEnd {k n : Nat} (h : s.DeclaresAt k n) : k < s.regionEnd n := by
  have hkn := (next?_eq_some_iff.1 h.next).1
  rcases s.regionEnd_cases n with hname | ⟨o, ho, hc⟩
  · omega
  · have hno := (nextOfKind?_eq_some_iff.1 ho).1
    obtain ⟨pre, t, body, u, rest, -, -, hlen, -⟩ := exists_of_blockEnd? hc
    omega

-- ---------------------------------------------------------------------------
-- The scan in its places
-- ---------------------------------------------------------------------------

/-- Tokens in a part of the sequence stand at its positions. -/
theorem exists_of_mem_between {o c : Nat} {t : Token} (h : t ∈ s.between o c) :
    ∃ m, o < m ∧ m < c ∧ s.tokens[m]? = some t := by
  obtain ⟨d, hd⟩ := List.mem_iff_getElem?.1 h
  rw [between, List.getElem?_take] at hd
  split at hd
  · rw [List.getElem?_drop] at hd
    exact ⟨o + 1 + d, by omega, by omega, hd⟩
  · cases hd

/-- Up to the first `{` behind a position there is none. -/
theorem afterBraces?_meaningfulFrom (s : TokenSeq) (n : Nat) :
    afterBraces? (meaningful (s.tokens.drop (n + 1))) =
      (leadingBlock? .curly (s.meaningfulFrom (s.nextOfKind? [.lBrace] n))).map Prod.snd := by
  cases hopen : s.nextOfKind? [.lBrace] n with
  | none =>
    have hne : ∀ t ∈ meaningful (s.tokens.drop (n + 1)), t.kind ≠ .lBrace := by
      intro t ht
      obtain ⟨d, hd⟩ := List.mem_iff_getElem?.1 (List.mem_filter.1 ht).1
      rw [List.getElem?_drop] at hd
      simpa [hd] using next?_eq_none_iff.1 hopen (n + 1 + d) (by omega)
    rw [← List.append_nil (meaningful _), afterBraces?_append_of_ne _ hne]
    rfl
  | some o =>
    obtain ⟨hno, ⟨k, hk, hkind⟩, hfirst⟩ := nextOfKind?_eq_some_iff.1 hopen
    obtain ⟨t, hget, rfl⟩ := Option.map_eq_some_iff.1 hkind
    have ht := List.mem_singleton.1 hk
    have hne : ∀ u ∈ meaningful (s.between n o), u.kind ≠ .lBrace := by
      intro u hu heq
      obtain ⟨m, hnm, hmo, hm⟩ := exists_of_mem_between (List.mem_filter.1 hu).1
      exact hfirst m hnm hmo _ (List.mem_singleton_self _) (by rw [kindAt?, hm, ← heq]; rfl)
    have hcut : s.tokens.drop (n + 1) = s.between n o ++ s.tokens.drop o := by
      have hdrop : s.tokens.drop o = (s.tokens.drop (n + 1)).drop (o - (n + 1)) := by
        rw [List.drop_drop, show n + 1 + (o - (n + 1)) = o by omega]
      rw [between, hdrop, List.take_append_drop]
    have htokens : meaningful (s.tokens.drop o) = t :: meaningful (s.tokens.drop (o + 1)) :=
      meaningful_drop_of_getElem? hget (by rw [Token.isMeaningful, ht]; rfl)
    rw [hcut, meaningful_append, afterBraces?_append_of_ne _ hne, afterBraces?, meaningfulFrom,
      Option.elim_some, htokens, List.dropWhile_cons_of_neg (by simp [ht])]

theorem isMeaningfulAt_nextOfKind? {ks : List Kind} (hks : ∀ k ∈ ks, k.isMeaningful = true)
    (s : TokenSeq) (i : Nat) : s.IsMeaningfulAt (s.nextOfKind? ks i) := by
  intro j hj
  obtain ⟨-, ⟨k, hk, hkind⟩, -⟩ := nextOfKind?_eq_some_iff.1 hj
  obtain ⟨t, hget, rfl⟩ := Option.map_eq_some_iff.1 hkind
  rw [hget, Option.any_some, Token.isMeaningful]
  exact hks _ hk

/-- Behind its body a declaration has ended. -/
theorem afterBody_drop (s : TokenSeq) (n : Nat) :
    afterBody (meaningful (s.tokens.drop (n + 1))) =
      meaningful (s.tokens.drop (s.regionEnd n + 1)) := by
  have hopen : s.IsMeaningfulAt (s.nextOfKind? [.lBrace] n) :=
    isMeaningfulAt_nextOfKind? (by decide) s n
  have hbraces : afterBraces? (meaningful (s.tokens.drop (n + 1))) =
      ((s.nextOfKind? [.lBrace] n).bind (s.blockEnd? .curly)).map
        fun c => meaningful (s.tokens.drop (c + 1)) := by
    rw [afterBraces?_meaningfulFrom]
    ext rest
    simp only [Option.map_eq_some_iff, Prod.exists, leadingBlock?_meaningfulFrom_iff hopen,
      Option.bind_eq_some_iff]
    constructor
    · rintro ⟨body, rest, ⟨o, c, ho, hc, -, rfl⟩, rfl⟩
      exact ⟨c, ⟨o, ho, hc⟩, rfl⟩
    · rintro ⟨c, ⟨o, ho, hc⟩, rfl⟩
      exact ⟨_, _, ⟨o, c, ho, hc, rfl, rfl⟩, rfl⟩
  rw [afterBody, hbraces, regionEnd, Option.getD_map]

/-- The names that the scan reports from position `i` on. -/
def declaredFrom (s : TokenSeq) (i : Nat) : List String :=
  declaredTypesFrom 0 (meaningful (s.tokens.drop i))

/-- At a declaration the scan reports the name, and goes on behind the end. -/
theorem declaredFrom_of_declaresAt {i n : Nat} {name : String} (h : s.DeclaresAt i n)
    (hname : s.tokens[n]? = some ⟨.identifier, name⟩) :
    s.declaredFrom i = name :: s.declaredFrom (s.regionEnd n + 1) := by
  obtain ⟨w, hw, hdeclares⟩ := h.keyword
  obtain ⟨t, hget, rfl⟩ := Option.map_eq_some_iff.1 hw
  have htokens : meaningful (s.tokens.drop (i + 1)) =
      ⟨.identifier, name⟩ :: meaningful (s.tokens.drop (n + 1)) :=
    meaningful_drop_eq_cons_iff.2 ⟨n, h.next, hname, rfl⟩
  have hseen : t.isMeaningful = true := Kind.isMeaningful_of_isTypeDeclaration hdeclares
  rw [declaredFrom, meaningful_drop_of_getElem? hget hseen, declaredTypesFrom_cons,
    if_pos hdeclares, htokens, declaredName?, if_pos rfl, declaredFrom, ← afterBody_drop]

/-- Anywhere else it goes on with the next token. -/
theorem declaredFrom_of_not {i : Nat} (h : ∀ n, ¬s.DeclaresAt i n) :
    s.declaredFrom i = s.declaredFrom (i + 1) := by
  rw [declaredFrom, declaredFrom]
  by_cases hany : s.tokens[i]?.any Token.isMeaningful = true
  · obtain ⟨t, hget, ht⟩ := (Option.any_eq_true _ _).1 hany
    have hname : (if t.kind.isTypeDeclaration then
        declaredName? (meaningful (s.tokens.drop (i + 1))) else none) = none := by
      split
      · next hdeclares =>
        cases htokens : meaningful (s.tokens.drop (i + 1)) with
        | nil => rfl
        | cons u us =>
          obtain ⟨n, hnext, hu, -⟩ := meaningful_drop_eq_cons_iff.1 htokens
          rw [declaredName?, if_neg]
          intro hkind
          exact h n ⟨⟨t.kind, by rw [kindAt?, hget]; rfl, hdeclares⟩, hnext,
            by rw [kindAt?, hu, ← hkind]; rfl⟩
      · rfl
    rw [meaningful_drop_of_getElem? hget ht, declaredTypesFrom_cons, hname]
  · rw [meaningful_drop_of_trivia (Nat.le_succ i)]
    intro m him hmi
    rw [show m = i by omega]
    simpa using hany

-- ---------------------------------------------------------------------------
-- The whole scan
-- ---------------------------------------------------------------------------

/-- A type called `name` is declared at position `k`. -/
def DeclaresNamed (s : TokenSeq) (k : Nat) (name : String) : Prop :=
  ∃ n, s.DeclaresAt k n ∧ s.tokens[n]? = some ⟨.identifier, name⟩

/-- The positions `ks` are those of the outermost declarations from position `i` on, in order. -/
structure ListsOutermost (s : TokenSeq) (i : Nat) (ks : List Nat) : Prop where
  sorted : ks.Pairwise (· < ·)
  mem_iff : ∀ k, k ∈ ks ↔ i ≤ k ∧ (∃ n, s.DeclaresAt k n) ∧ s.IsOutermost k

/-- Where no declaration begins, the next position is as far outside as this one. -/
theorem IsOutermost.succ {i : Nat} (hi : s.IsOutermost i) (h : ∀ n, ¬s.DeclaresAt i n) :
    s.IsOutermost (i + 1) := by
  intro j m hj hlt
  have hne : j ≠ i := by
    rintro rfl
    exact h m hj
  have := hi j m hj (by omega)
  omega

/-- The end of an outermost declaration lies in no other: those inside have ended before. -/
theorem IsOutermost.behind {i n : Nat} (hi : s.IsOutermost i) (h : s.BodiesOpen)
    (hn : s.DeclaresAt i n) : s.IsOutermost (s.regionEnd n + 1) := by
  intro j m hj hlt
  have hend := hn.lt_regionEnd
  rcases Nat.lt_trichotomy j i with hji | rfl | hij
  · have := hi j m hj hji
    omega
  · have heq := hn.next.symm.trans hj.next
    cases heq
    omega
  · have := regionEnd_le h hn hj hij (by omega)
    omega

theorem ListsOutermost.of_not {i : Nat} {ks : List Nat} (hks : s.ListsOutermost (i + 1) ks)
    (h : ∀ n, ¬s.DeclaresAt i n) : s.ListsOutermost i ks := by
  refine ⟨hks.sorted, fun k => ?_⟩
  rw [hks.mem_iff]
  refine and_congr_left ?_
  rintro ⟨⟨n, hn⟩, -⟩
  have hne : k ≠ i := by
    rintro rfl
    exact h n hn
  omega

theorem ListsOutermost.cons {i n : Nat} {ks : List Nat}
    (hks : s.ListsOutermost (s.regionEnd n + 1) ks) (hi : s.IsOutermost i)
    (hn : s.DeclaresAt i n) : s.ListsOutermost i (i :: ks) := by
  have hend := hn.lt_regionEnd
  refine ⟨List.pairwise_cons.2 ⟨fun k hk => ?_, hks.sorted⟩, fun k => ?_⟩
  · have := ((hks.mem_iff k).1 hk).1
    omega
  rw [List.mem_cons, hks.mem_iff]
  constructor
  · rintro (rfl | ⟨hk, hdeclares⟩)
    · exact ⟨Nat.le_refl _, ⟨n, hn⟩, hi⟩
    · exact ⟨by omega, hdeclares⟩
  · rintro ⟨hk, hdeclares, hout⟩
    rcases Nat.eq_or_lt_of_le hk with rfl | hlt
    · exact .inl rfl
    · exact .inr ⟨hout i n hn hlt, hdeclares, hout⟩

/-- From a position in no earlier declaration the scan reports the outermost declarations. -/
theorem exists_outermost_declaredFrom (h : s.BodiesOpen) {i : Nat} (hi : s.IsOutermost i) :
    ∃ ks, s.ListsOutermost i ks ∧ List.Forall₂ s.DeclaresNamed ks (s.declaredFrom i) := by
  -- the scan goes on at some later position, and is in no earlier declaration there either
  induction hlen : s.length - i using Nat.strongRecOn generalizing i with
  | ind d ih =>
    rcases Nat.lt_or_ge i s.length with hlt | hge
    · by_cases hdeclares : ∃ n, s.DeclaresAt i n
      · obtain ⟨n, hn⟩ := hdeclares
        obtain ⟨⟨kind, name⟩, hget, rfl⟩ := Option.map_eq_some_iff.1 hn.name
        have hend := hn.lt_regionEnd
        obtain ⟨ks, hks, hnames⟩ := ih _ (by omega) (hi.behind h hn) rfl
        refine ⟨i :: ks, hks.cons hi hn, ?_⟩
        rw [declaredFrom_of_declaresAt hn hget]
        exact .cons ⟨n, hn, hget⟩ hnames
      · have hnone := not_exists.1 hdeclares
        obtain ⟨ks, hks, hnames⟩ := ih _ (by omega) (hi.succ hnone) rfl
        refine ⟨ks, hks.of_not hnone, ?_⟩
        rwa [declaredFrom_of_not hnone]
    · refine ⟨[], ⟨.nil, fun k => iff_of_false nofun ?_⟩, ?_⟩
      · rintro ⟨hk, ⟨n, hn⟩, -⟩
        have := hn.lt_length
        omega
      · rw [declaredFrom, List.drop_eq_nil_of_le hge]
        exact .nil

/-- If the first brace behind the name of each declaration opens a block, the declared types
are those of the declarations that lie in no earlier declaration, in order. -/
theorem declaredTypes_eq_outermost (h : s.BodiesOpen) :
    ∃ ks : List Nat, ks.Pairwise (· < ·) ∧
      (∀ k, k ∈ ks ↔ (∃ n, s.DeclaresAt k n) ∧ s.IsOutermost k) ∧
      List.Forall₂ s.DeclaresNamed ks (declaredTypes s.tokens) := by
  have hstart : s.IsOutermost 0 := fun j n _ hlt => absurd hlt (Nat.not_lt_zero j)
  obtain ⟨ks, hks, hnames⟩ := exists_outermost_declaredFrom h hstart
  refine ⟨ks, hks.sorted, fun k => ?_, hnames⟩
  rw [hks.mem_iff, and_iff_right (Nat.zero_le k)]

/-- A body that is closed, an unnamed class, a missing body and one that is never closed. -/
theorem declaredTypes_eq_outermost_unclosed :
    let s := TokenSeq.ofList
      [⟨.keyword .classKw, "class"⟩, ⟨.identifier, "A"⟩, ⟨.lBrace, "\x7b"⟩,
        ⟨.keyword .traitKw, "trait"⟩, ⟨.identifier, "B"⟩, ⟨.lBrace, "\x7b"⟩, ⟨.rBrace, "\x7d"⟩,
        ⟨.keyword .classKw, "class"⟩, ⟨.lBrace, "\x7b"⟩, ⟨.rBrace, "\x7d"⟩, ⟨.rBrace, "\x7d"⟩,
        ⟨.keyword .interfaceKw, "interface"⟩, ⟨.whitespace, " "⟩, ⟨.identifier, "C"⟩,
        ⟨.keyword .classKw, "class"⟩, ⟨.identifier, "D"⟩, ⟨.lBrace, "\x7b"⟩,
        ⟨.keyword .classKw, "class"⟩, ⟨.identifier, "E"⟩, ⟨.lBrace, "\x7b"⟩, ⟨.rBrace, "\x7d"⟩]
    s.BodiesOpen ∧ ∃ ks : List Nat, ks.Pairwise (· < ·) ∧
      (∀ k, k ∈ ks ↔ (∃ n, s.DeclaresAt k n) ∧ s.IsOutermost k) ∧
      List.Forall₂ s.DeclaresNamed ks ["A", "C", "D", "E"] := by
  intro s
  have h : s.BodiesOpen := by decide +kernel
  have hnames : declaredTypes s.tokens = ["A", "C", "D", "E"] := by decide +kernel
  exact ⟨h, hnames ▸ declaredTypes_eq_outermost h⟩

end TokenSeq

end PhpImports
