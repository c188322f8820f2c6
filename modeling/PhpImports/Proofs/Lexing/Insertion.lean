import PhpImports.Proofs.Lexing.ImportText

/-!
# PhpImports — imports written into a source

Imports written behind a `;` or an opening brace of a source are lexed into their own
tokens, and every other token of the source stays as it was. The rules look no further
than these marks. Whether a reserved word is a name depends on the tokens before it, but
neither a mark nor the `;` of an import makes a name of what comes next.

## Results

* `resolveNamesAfter_congr`   — neutral positions do not differ.
* `resolveNamesAfter_imports` — no word of an import is in name position.
* `lexemesFrom_importText`    — the tokens of imports, by the rules alone.
* `tokenize_insert`           — the tokens of the source with imports written into it.
-/

namespace PhpImports

-- ---------------------------------------------------------------------------
-- Positions in which reserved words keep their meaning
-- ---------------------------------------------------------------------------

namespace Preceding

/-- No reserved word is a name here. -/
def Neutral (p : Preceding) : Prop :=
  ∀ w, p.expectsName w = false

theorem Neutral.resolve_eq {p : Preceding} (h : p.Neutral) (k : Kind) : p.resolve k = k := by
  cases k with
  | keyword w => rw [resolve, h w]; rfl
  | _ => rfl

theorem Neutral.function_eq {p : Preceding} (h : p.Neutral) : p.function = false := by
  have hnew := h .newKw
  unfold expectsName at hnew
  split at hnew
  · simp at hnew
  · simp at hnew
  · simp at hnew
  · exact hnew

/-- After a neutral position only the next token matters. -/
theorem Neutral.push_eq {p : Preceding} (h : p.Neutral) {k : Kind} (hk : k.isTrivia = false) :
    p.push k = ⟨some k, k = .keyword .functionKw⟩ := by
  rw [push, hk, h.function_eq]
  simp

theorem push_of_trivia (p : Preceding) {k : Kind} (hk : k.isTrivia = true) : p.push k = p := by
  rw [push, hk]
  rfl

/-- The tokens behind which no name is expected, whatever came before them. -/
def endsName : Kind → Bool
  | .nsSeparator | .semicolon | .lBrace | .lNumber | .dNumber | .keyword .useKw => true
  | _ => false

theorem neutral_push (p : Preceding) {k : Kind} (hk : endsName k = true) :
    (p.push k).Neutral := by
  unfold endsName at hk
  split at hk
  · exact fun w => rfl
  · exact fun w => rfl
  · exact fun w => rfl
  · exact fun w => rfl
  · exact fun w => rfl
  · exact fun w => rfl
  · simp at hk

end Preceding

open Preceding Pattern

/-- Neutral positions do not differ. -/
theorem resolveNamesAfter_congr {p q : Preceding} (hp : p.Neutral) (hq : q.Neutral)
    (ts : List Token) : resolveNamesAfter p ts = resolveNamesAfter q ts := by
  induction ts with
  | nil => rfl
  | cons t ts ih =>
    rw [resolveNamesAfter, resolveNamesAfter, hp.resolve_eq, hq.resolve_eq]
    cases htrivia : t.kind.isTrivia with
    | true => rw [push_of_trivia p htrivia, push_of_trivia q htrivia, ih]
    | false => rw [hp.push_eq htrivia, hq.push_eq htrivia]

/-- A token in a neutral position stays as it is. -/
theorem resolveNamesAfter_cons {p : Preceding} (hp : p.Neutral) (t : Token) (ts : List Token) :
    resolveNamesAfter p (t :: ts) = t :: resolveNamesAfter (p.push t.kind) ts := by
  rw [resolveNamesAfter, hp.resolve_eq]

theorem resolveNamesAfter_cons_trivia {p : Preceding} (hp : p.Neutral) {t : Token}
    (ht : t.kind.isTrivia = true) (ts : List Token) :
    resolveNamesAfter p (t :: ts) = t :: resolveNamesAfter p ts := by
  rw [resolveNamesAfter_cons hp, push_of_trivia p ht]

/-- A token after which no name is expected. -/
theorem resolveNamesAfter_cons_endsName {p : Preceding} (hp : p.Neutral) {t : Token}
    (ht : endsName t.kind = true) (ts : List Token) :
    resolveNamesAfter p (t :: ts) = t :: resolveNamesAfter p ts := by
  rw [resolveNamesAfter_cons hp, resolveNamesAfter_congr (neutral_push p ht) hp]

/-- A word, even `function`, before a token after which no name is expected. -/
theorem resolveNamesAfter_word {p : Preceding} (hp : p.Neutral) (t : Token) {u : Token}
    (hu : endsName u.kind = true) (hkeep : ∀ q : Preceding, q.resolve u.kind = u.kind)
    (ts : List Token) :
    resolveNamesAfter p (t :: u :: ts) = t :: u :: resolveNamesAfter p ts := by
  rw [resolveNamesAfter_cons hp, resolveNamesAfter, hkeep,
    resolveNamesAfter_congr (neutral_push _ hu) hp]

theorem resolveNamesAfter_path {p : Preceding} (hp : p.Neutral) {path : List Token}
    (hpath : IsPath path) (ts : List Token) :
    resolveNamesAfter p (path ++ ts) = path ++ resolveNamesAfter p ts := by
  induction hpath with
  | nil => rfl
  | separator ht _ ih =>
    rw [List.cons_append, resolveNamesAfter_cons_endsName hp (by rw [ht]; rfl), ih]
    rfl
  | @number t _ ht _ ih =>
    have hends : endsName t.kind = true := by
      rcases ht with ht | ht <;> rw [ht] <;> rfl
    rw [List.cons_append, resolveNamesAfter_cons_endsName hp hends, ih]
    rfl
  | word _ hu _ ih =>
    rw [List.cons_append, List.cons_append,
      resolveNamesAfter_word hp _ (by rw [hu]; rfl) (by rw [hu]; exact fun q => rfl), ih]
    rfl

/-- No word of an import is in name position. -/
theorem resolveNamesAfter_import {p : Preceding} (hp : p.Neutral) {path : List Token}
    (hpath : IsPath path) (name : String) (ts : List Token) :
    resolveNamesAfter p (importTokens path name ++ ts) =
      importTokens path name ++ resolveNamesAfter p ts := by
  rw [importTokens_append, resolveNamesAfter_cons_trivia hp rfl,
    resolveNamesAfter_cons_endsName hp rfl, resolveNamesAfter_cons_trivia hp rfl,
    resolveNamesAfter_path hp hpath, resolveNamesAfter_word hp _ rfl (fun q => rfl),
    importTokens_append]

theorem resolveNamesAfter_imports {p : Preceding} (hp : p.Neutral) {path : List Token}
    (hpath : IsPath path) (names : List String) (ts : List Token) :
    resolveNamesAfter p (names.flatMap (importTokens path) ++ ts) =
      names.flatMap (importTokens path) ++ resolveNamesAfter p ts := by
  induction names with
  | nil => rfl
  | cons n names ih =>
    rw [List.flatMap_cons, List.append_assoc, resolveNamesAfter_import hp hpath, ih,
      List.append_assoc]

-- ---------------------------------------------------------------------------
-- The text of several imports
-- ---------------------------------------------------------------------------

/-- The text of the imports of `names`, each on a line of its own. -/
def importText (path : String) (names : List String) : List Char :=
  names.flatMap fun m => "\nuse ".toList ++ path.toList ++ '\\' :: m.toList ++ [';']

/-- No word holds a `*`. -/
theorem star_notMem_of_nameText {text : String} (h : NameText text) : '*' ∉ text.toList := by
  intro hmem
  rcases h with h | h
  · obtain ⟨k, hk⟩ := Option.ne_none_iff_exists'.1 h
    obtain ⟨l, hl, hfold⟩ := exists_of_isEqv (isEqv_of_ofText? hk) hmem
    have hword := beginsWord_of_foldsTo hfold
      (isLower_spelling (List.mem_of_find?_eq_some hk) l hl)
    exact absurd hword (by decide)
  · cases ht : text.toList with
    | nil => simp [ht] at hmem
    | cons c w =>
      rw [ht] at hmem
      rw [ht, matches_name_iff] at h
      rcases List.mem_cons.1 hmem with rfl | hmem
      · exact absurd h.1 (by decide)
      · exact absurd (h.2 _ hmem) (by decide)

theorem star_notMem_importText {path : String} (hpath : ∀ c ∈ path.toList, isPathChar c = true)
    {names : List String} (hnames : ∀ m ∈ names, NameText m) :
    '*' ∉ importText path names := by
  intro hmem
  obtain ⟨m, hm, hmem⟩ := List.mem_flatMap.1 hmem
  simp only [List.mem_append, List.mem_cons, List.not_mem_nil, or_false] at hmem
  rcases hmem with ((hmem | hmem) | hmem | hmem) | hmem
  · exact absurd hmem (by decide)
  · exact absurd (hpath _ hmem) (by decide)
  · exact absurd hmem (by decide)
  · exact star_notMem_of_nameText (hnames m hm) hmem
  · exact absurd hmem (by decide)

/-- The tokens of imports, by the rules alone. -/
theorem lexemesFrom_importText {path : String} (hpath : ∀ c ∈ path.toList, isPathChar c = true)
    {names : List String} (hnames : ∀ m ∈ names, NameText m) (y : List Char) :
    lexemesFrom .code 0 (importText path names ++ y) =
      names.flatMap (importTokens (pathTokens path)) ++ lexemesFrom .code 0 y := by
  induction names with
  | nil => rfl
  | cons n names ih =>
    rw [List.forall_mem_cons] at hnames
    rw [importText, List.flatMap_cons, List.append_assoc, lexemesFrom_import hpath hnames.1]
    rw [importText] at ih
    rw [ih hnames.2, List.flatMap_cons, List.append_assoc]

-- ---------------------------------------------------------------------------
-- The source with the imports
-- ---------------------------------------------------------------------------

/-- The texts of the tokens before and behind a place in the source. -/
theorem flatMap_text_cut {mode : Mode} {cs : List Char} {us vs : List Token} {a rest : List Char}
    (hlex : lexemesFrom mode 0 cs = us ++ vs) (hcs : cs = a ++ rest)
    (hrest : lexemesFrom .code 0 rest = vs) : us.flatMap (·.text.toList) = a := by
  have hwhole := flatMap_text_lexemesFrom mode 0 cs
  have htail := flatMap_text_lexemesFrom .code 0 rest
  rw [hrest, List.drop_zero] at htail
  rw [hlex, List.flatMap_append, htail, List.drop_zero, hcs] at hwhole
  exact List.append_cancel_right hwhole

/-- Imports written behind a `;` or an opening brace are lexed into their tokens, and all other
tokens stay. -/
theorem tokenize_insert {source : String} {pre post : List Token} {t : Token}
    (h : tokenize source = pre ++ t :: post) (ht : t.kind = .semicolon ∨ t.kind = .lBrace)
    {path : String} (hpath : ∀ c ∈ path.toList, isPathChar c = true)
    {names : List String} (hnames : ∀ m ∈ names, NameText m) :
    tokenize (String.ofList (pre.flatMap (·.text.toList) ++ t.text.toList ++
        importText path names ++ post.flatMap (·.text.toList))) =
      pre ++ t :: (names.flatMap (importTokens (pathTokens path)) ++ post) := by
  obtain ⟨us, u, vs, hlex, hpre, htoken, hpost⟩ := exists_of_resolveNamesAfter_eq h
  -- a mark is never the outcome of a reserved word in name position
  have hkind : t.kind = u.kind := by
    rw [htoken] at ht ⊢
    unfold Preceding.resolve at ht ⊢
    split at ht
    · split at ht <;> simp at ht
    · rfl
  obtain ⟨a, d, rest, hcs, -, hrest, hinsert⟩ := lexemesFrom_insert hlex (by rw [← hkind]; exact ht)
  -- the texts around the place
  have hbefore : pre.flatMap (·.text.toList) ++ t.text.toList = a ++ [d] := by
    have hcut : (us ++ [u]).flatMap (·.text.toList) = a ++ [d] :=
      flatMap_text_cut (by rw [List.append_assoc]; exact hlex) (by rw [hcs]; simp) hrest
    rw [← hcut, ← hpre, flatMap_text_resolveNamesAfter, List.flatMap_append, htoken]
    simp
  have hbehind : post.flatMap (·.text.toList) = rest := by
    have htail := flatMap_text_lexemesFrom .code 0 rest
    rw [List.drop_zero, hrest] at htail
    rw [← hpost, flatMap_text_resolveNamesAfter, htail]
  have hneutral : ((({} : Preceding).past us).push t.kind).Neutral :=
    neutral_push _ (by rcases ht with ht | ht <;> rw [ht] <;> rfl)
  have hsource := hinsert (importText path names) (star_notMem_importText hpath hnames)
  rw [lexemesFrom_importText hpath hnames, hrest] at hsource
  rw [tokenize, String.toList_ofList, hbefore, hbehind, List.append_assoc, List.append_assoc,
    List.singleton_append, lexemes, hsource, resolveNames, resolveNamesAfter_append, hpre,
    resolveNamesAfter, ← htoken]
  have hk : ((({} : Preceding).past us).resolve u.kind) = t.kind := by rw [htoken]
  rw [hk, resolveNamesAfter_imports hneutral (lexemesFrom_path hpath).1, hpost]

end PhpImports
