import PhpImports.Names.Segments
import PhpImports.Proofs.Lexing.Locality

/-!
# PhpImports — the text of an import, lexed

An import is written as `use`, a path of words and separators, and a name. Lexed, its
text gives back these pieces: a word of the path is a reserved word if it spells one and
an identifier if not, and so is the name. Words that begin with a digit fall into a
number and the rest.

## Results

* `IsPath`, `pathTokens`, `lexemesFrom_path` — the tokens of a path.
* `NameText` — texts that the lexer takes for one word.
* `importTokens`, `lexemesFrom_import` — the tokens of an import.
* `nameText_of_identifier` — every identifier of a source is one word.
-/

namespace PhpImports

open Pattern

-- ---------------------------------------------------------------------------
-- One token
-- ---------------------------------------------------------------------------

/-- The token at the beginning of code, and the tokens after it. -/
theorem lexemesFrom_code_cons {c : Char} {w y : List Char} {k : Kind}
    (hfound : (longestMatch (c :: (w ++ y))).longest = some (.token k, w.length + 1))
    (hk : k ≠ .closeTag) :
    lexemesFrom .code 0 (c :: (w ++ y)) =
      ⟨k, String.ofList (c :: w)⟩ :: lexemesFrom .code 0 y := by
  have hlexeme : lexeme .code (c :: (w ++ y)) = (k, w.length + 1) := by
    show codeLexeme (c :: (w ++ y)) = _
    rw [codeLexeme_of_longest hfound, lexemeOf, if_neg hk]
  have hafter : Mode.after k = .code := if_neg hk
  rw [lexemesFrom_eq, hlexeme, hafter, List.take_succ_cons, List.drop_succ_cons,
    List.take_left' rfl, List.drop_left' rfl]

theorem lexemesFrom_mark {c : Char} {k : Kind} (hm : (c, k) ∈ marks) (y : List Char) :
    lexemesFrom .code 0 (c :: y) = ⟨k, String.singleton c⟩ :: lexemesFrom .code 0 y := by
  have hk : k ≠ .closeTag := by
    rintro rfl
    exact absurd hm (by simp [marks])
  exact lexemesFrom_code_cons (w := []) (longest_mark hm y) hk

-- ---------------------------------------------------------------------------
-- Words
-- ---------------------------------------------------------------------------

/-- A text that the lexer takes for one word: it spells a reserved word, or it is a name. -/
def NameText (text : String) : Prop :=
  Keyword.ofText? text ≠ none ∨ name.Matches text.toList

theorem isEqv_of_ofText? {text : String} {w : Keyword} (h : Keyword.ofText? text = some w) :
    text.toList.isEqv w.spelling.toList foldsTo = true := by
  simpa using List.find?_some h

/-- A word begins with a character that a word may begin with. -/
theorem NameText.exists_cons {text : String} (h : NameText text) :
    ∃ c w, text.toList = c :: w ∧ beginsWord c = true := by
  rcases h with h | h
  · obtain ⟨k, hk⟩ := Option.ne_none_iff_exists'.1 h
    have heqv := isEqv_of_ofText? hk
    have hmem := List.mem_of_find?_eq_some hk
    cases hs : k.spelling.toList with
    | nil => exact absurd hs (spelling_ne_nil k hmem)
    | cons l s =>
      rw [hs] at heqv
      cases ht : text.toList with
      | nil =>
        rw [ht] at heqv
        simp at heqv
      | cons c w =>
        rw [ht, List.isEqv_cons_cons, Bool.and_eq_true] at heqv
        refine ⟨c, w, rfl, beginsWord_of_foldsTo heqv.1 (isLower_spelling hmem l ?_)⟩
        rw [hs]
        exact List.mem_cons_self
  · cases ht : text.toList with
    | nil =>
      rw [ht] at h
      exact absurd (nullable_iff.2 h) (by decide)
    | cons c w =>
      rw [ht, matches_name_iff] at h
      refine ⟨c, w, rfl, ?_⟩
      rw [beginsWord, h.1]
      rfl

/-- A word before a mark or a blank is one token. -/
theorem lexemesFrom_nameText {text : String} (h : NameText text) {d : Char} (y : List Char)
    (hd : d ∈ [';', '\\', ' ']) :
    lexemesFrom .code 0 (text.toList ++ d :: y) =
      ⟨wordKind text, text⟩ :: lexemesFrom .code 0 (d :: y) := by
  obtain ⟨c, w, ht, hc⟩ := h.exists_cons
  have htext : String.ofList (c :: w) = text := by rw [← ht, String.ofList_toList]
  rw [NameText, ht, ← htext] at h
  have hlong := longest_word y hc h hd
  rw [ht, List.cons_append, lexemesFrom_code_cons hlong (wordKind_ne_closeTag _), htext]

-- ---------------------------------------------------------------------------
-- Paths
-- ---------------------------------------------------------------------------

/-- The tokens of a path, through its last separator. Every word stands before a separator. -/
inductive IsPath : List Token → Prop
  | nil : IsPath []
  | separator {t : Token} {ts : List Token} : t.kind = .nsSeparator → IsPath ts → IsPath (t :: ts)
  | number {t : Token} {ts : List Token} : t.kind = .lNumber ∨ t.kind = .dNumber → IsPath ts →
      IsPath (t :: ts)
  | word {t u : Token} {ts : List Token} : t.kind = wordKind t.text → u.kind = .nsSeparator →
      IsPath ts → IsPath (t :: u :: ts)

/-- The characters of paths. -/
def isPathChar (c : Char) : Bool :=
  isWordChar c || c == separator

theorem isDigit_of_isWordChar {c : Char} (h : isWordChar c = true) (hs : isWordStart c = false) :
    c.isDigit = true := by
  simp only [isWordChar, isWordStart, Char.isAlphanum, Bool.or_eq_true, Bool.or_eq_false_iff]
    at h hs
  rcases h with (h | h) | h
  · rw [hs.1] at h
    exact absurd h (by simp)
  · exact h
  · rw [hs.2] at h
    exact absurd h (by simp)

/-- The first word of a path, and the separator behind it. -/
theorem exists_word_append (path : List Char) (hpath : ∀ c ∈ path, isPathChar c = true) :
    ∃ w rest, path = w ++ rest ∧ (∀ c ∈ w, isWordChar c = true) ∧
      (rest = [] ∨ ∃ rest', rest = '\\' :: rest') := by
  induction path with
  | nil => exact ⟨[], [], rfl, by simp, .inl rfl⟩
  | cons c path ih =>
    rw [List.forall_mem_cons] at hpath
    obtain ⟨w, rest, heq, hw, hrest⟩ := ih hpath.2
    have hchar := hpath.1
    rw [isPathChar, Bool.or_eq_true, beq_iff_eq] at hchar
    rcases hchar with hword | hsep
    · refine ⟨c :: w, rest, by rw [heq]; rfl, ?_, hrest⟩
      rw [List.forall_mem_cons]
      exact ⟨hword, hw⟩
    · exact ⟨[], c :: path, rfl, by simp, .inr ⟨path, by rw [hsep]; rfl⟩⟩

/-- The token of a word that is not in name position. -/
def wordToken (text : String) : Token :=
  ⟨wordKind text, text⟩

/-- The token of the separator. -/
def separatorToken : Token :=
  ⟨.nsSeparator, String.singleton separator⟩

theorem lexemesFrom_separator (y : List Char) :
    lexemesFrom .code 0 ('\\' :: y) = separatorToken :: lexemesFrom .code 0 y :=
  lexemesFrom_mark (by decide) y

/-- A word of a path with the separator behind it. -/
theorem lexemesFrom_word_separator {c : Char} {w : List Char} (hc : isWordStart c = true)
    (hw : ∀ d ∈ w, isWordChar d = true) (y : List Char) :
    lexemesFrom .code 0 (c :: (w ++ '\\' :: y)) =
      wordToken (String.ofList (c :: w)) :: separatorToken :: lexemesFrom .code 0 y := by
  have hname : NameText (String.ofList (c :: w)) := by
    right
    rw [String.toList_ofList, matches_name_iff]
    exact ⟨hc, hw⟩
  have hlex := lexemesFrom_nameText hname y (d := '\\') (by decide)
  rw [String.toList_ofList, List.cons_append] at hlex
  rw [hlex, lexemesFrom_separator]
  rfl

/-- A path, with a separator behind it, is lexed into the same tokens whatever comes next. -/
theorem exists_isPath (path : List Char) (hpath : ∀ c ∈ path, isPathChar c = true) :
    ∃ ts, IsPath ts ∧ ∀ y, lexemesFrom .code 0 (path ++ '\\' :: y) =
      ts ++ lexemesFrom .code 0 y := by
  generalize hn : path.length = n
  -- a number can end inside a word, so the induction is on the length and not on the words
  induction n using Nat.strongRecOn generalizing path with
  | ind n ih =>
    cases path with
    | nil => exact ⟨[separatorToken], .separator rfl .nil, lexemesFrom_separator⟩
    | cons c path =>
      rw [List.forall_mem_cons] at hpath
      rw [List.length_cons] at hn
      obtain ⟨hchar, hpath⟩ := hpath
      rw [isPathChar, Bool.or_eq_true, beq_iff_eq] at hchar
      rcases hchar with hword | hsep
      · obtain ⟨w, rest, rfl, hw, hrest⟩ := exists_word_append path hpath
        rw [List.length_append] at hn
        by_cases hstart : isWordStart c = true
        · -- a whole word
          rcases hrest with rfl | ⟨rest', rfl⟩
          · refine ⟨[wordToken (String.ofList (c :: w)), separatorToken], .word rfl rfl .nil, ?_⟩
            intro y
            rw [List.append_nil, List.cons_append, lexemesFrom_word_separator hstart hw]
            rfl
          · rw [List.length_cons] at hn
            obtain ⟨ts, hts, hlex⟩ := ih rest'.length (by omega) rest'
              (fun d hd => hpath d (by simp [hd])) rfl
            refine ⟨wordToken (String.ofList (c :: w)) :: separatorToken :: ts,
              .word rfl rfl hts, ?_⟩
            intro y
            rw [List.cons_append, List.append_assoc, List.cons_append,
              lexemesFrom_word_separator hstart hw, hlex]
            rfl
        · -- a number, and what is left of the word
          rw [Bool.not_eq_true] at hstart
          obtain ⟨k, m, hk, hm, hlong⟩ := longest_digit w (isDigit_of_isWordChar hword hstart)
          have hclose : k ≠ .closeTag := by
            rintro rfl
            exact absurd hk (by simp)
          have hcut : ∀ y, w ++ rest ++ y = w.take m ++ ((w.drop m ++ rest) ++ y) := by
            intro y
            rw [List.append_assoc (w.drop m), ← List.append_assoc (w.take m),
              List.take_append_drop, List.append_assoc]
          obtain ⟨ts, hts, hlex⟩ := ih (w.drop m ++ rest).length
            (by rw [List.length_append, List.length_drop]; omega) (w.drop m ++ rest)
            (by
              intro d hd
              refine hpath d ?_
              rcases List.mem_append.1 hd with hd | hd
              · exact List.mem_append.2 (.inl (List.mem_of_mem_drop hd))
              · exact List.mem_append.2 (.inr hd)) rfl
          refine ⟨⟨k, String.ofList (c :: w.take m)⟩ :: ts, .number hk hts, ?_⟩
          intro y
          have hfound : (longestMatch (c :: (w ++ rest ++ '\\' :: y))).longest =
              some (.token k, (w.take m).length + 1) := by
            rw [List.append_assoc, List.length_take, Nat.min_eq_left hm]
            rcases hrest with rfl | ⟨rest', rfl⟩
            · exact hlong '\\' y (by decide)
            · exact hlong '\\' (rest' ++ '\\' :: y) (by decide)
          rw [hcut] at hfound
          rw [List.cons_append, hcut, lexemesFrom_code_cons hfound hclose, hlex]
          rfl
      · obtain ⟨ts, hts, hlex⟩ := ih path.length (by omega) path hpath rfl
        refine ⟨separatorToken :: ts, .separator rfl hts, ?_⟩
        intro y
        rw [hsep, List.cons_append]
        show lexemesFrom .code 0 ('\\' :: (path ++ '\\' :: y)) = _
        rw [lexemesFrom_separator, hlex]
        rfl

/-- The tokens of a path with a separator behind it. -/
def pathTokens (path : String) : List Token :=
  lexemesFrom .code 0 (path.toList ++ [separator])

/-- What comes behind the separator does not change the tokens of a path. -/
theorem lexemesFrom_path {path : String} (hpath : ∀ c ∈ path.toList, isPathChar c = true) :
    IsPath (pathTokens path) ∧ ∀ y, lexemesFrom .code 0 (path.toList ++ '\\' :: y) =
      pathTokens path ++ lexemesFrom .code 0 y := by
  obtain ⟨ts, hts, hlex⟩ := exists_isPath path.toList hpath
  have heq : pathTokens path = ts := by
    show lexemesFrom .code 0 (path.toList ++ ['\\']) = ts
    rw [hlex [], lexemesFrom, List.append_nil]
  rw [heq]
  exact ⟨hts, hlex⟩

-- ---------------------------------------------------------------------------
-- Imports
-- ---------------------------------------------------------------------------

/-- The tokens of an import of `name`, lexed: `path` are the tokens of the path before it. -/
def importTokens (path : List Token) (name : String) : List Token :=
  [⟨.whitespace, "\n"⟩, ⟨.keyword .useKw, "use"⟩, ⟨.whitespace, " "⟩] ++ path ++
    [wordToken name, ⟨.semicolon, ";"⟩]

theorem importTokens_append (path : List Token) (name : String) (ts : List Token) :
    importTokens path name ++ ts =
      ⟨.whitespace, "\n"⟩ :: ⟨.keyword .useKw, "use"⟩ :: ⟨.whitespace, " "⟩ ::
        (path ++ wordToken name :: ⟨.semicolon, ";"⟩ :: ts) := by
  simp [importTokens]

theorem lexemesFrom_use {d : Char} (y : List Char) (hd : isLayout d = false) :
    lexemesFrom .code 0 ("\nuse ".toList ++ d :: y) =
      ⟨.whitespace, "\n"⟩ :: ⟨.keyword .useKw, "use"⟩ :: ⟨.whitespace, " "⟩ ::
        lexemesFrom .code 0 (d :: y) := by
  have hkeyword : Keyword.ofText? "use" = some .useKw := by decide
  have huse : NameText "use" := .inl (by rw [hkeyword]; simp)
  have hkind : wordKind "use" = .keyword .useKw := by rw [wordKind, hkeyword]
  have hline := lexemesFrom_code_cons (w := []) (longest_blank (c := '\n') (d := 'u')
    ("se ".toList ++ d :: y) (by decide) (by decide)) (by decide)
  have hblank := lexemesFrom_code_cons (w := []) (longest_blank (c := ' ') y (by decide) hd)
    (by decide)
  have hword := lexemesFrom_nameText huse (d := ' ') (d :: y) (by decide)
  rw [hkind] at hword
  show lexemesFrom .code 0 ('\n' :: ([] ++ 'u' :: ("se ".toList ++ d :: y))) = _
  rw [hline]
  show _ :: lexemesFrom .code 0 ("use".toList ++ ' ' :: d :: y) = _
  rw [hword]
  show _ :: _ :: lexemesFrom .code 0 (' ' :: ([] ++ d :: y)) = _
  rw [hblank]

/-- The text of an import is lexed into its tokens, whatever comes next. -/
theorem lexemesFrom_import {path : String} (hpath : ∀ c ∈ path.toList, isPathChar c = true)
    {name : String} (hname : NameText name) (y : List Char) :
    lexemesFrom .code 0 ("\nuse ".toList ++ path.toList ++ '\\' :: name.toList ++ [';'] ++ y) =
      importTokens (pathTokens path) name ++ lexemesFrom .code 0 y := by
  obtain ⟨-, hlex⟩ := lexemesFrom_path hpath
  have hfirst : ∃ d z, path.toList ++ '\\' :: (name.toList ++ ';' :: y) = d :: z ∧
      isLayout d = false := by
    cases hp : path.toList with
    | nil => exact ⟨'\\', _, rfl, by decide⟩
    | cons d p =>
      refine ⟨d, _, rfl, ?_⟩
      have hd := hpath d (by rw [hp]; exact List.mem_cons_self)
      cases hlayout : isLayout d with
      | false => rfl
      | true =>
        simp only [isLayout, Bool.or_eq_true, beq_iff_eq] at hlayout
        rcases hlayout with ((rfl | rfl) | rfl) | rfl <;> exact absurd hd (by decide)
  obtain ⟨d, z, hsplit, hd⟩ := hfirst
  have hsemi := lexemesFrom_mark (c := ';') (k := .semicolon) (by decide) y
  have htext : "\nuse ".toList ++ path.toList ++ '\\' :: name.toList ++ [';'] ++ y =
      "\nuse ".toList ++ (path.toList ++ '\\' :: (name.toList ++ ';' :: y)) := by
    simp only [List.append_assoc, List.cons_append, List.nil_append]
  rw [htext, hsplit, lexemesFrom_use z hd, ← hsplit, hlex,
    lexemesFrom_nameText hname y (by decide), hsemi, importTokens_append]
  rfl

-- ---------------------------------------------------------------------------
-- The identifiers of a source
-- ---------------------------------------------------------------------------

/-- The categories of words. -/
def Category.isWord : Category → Bool
  | .token .identifier | .token (.keyword _) => true
  | _ => false

theorem isWord_otherRules : ∀ r ∈ otherRules, r.category.isWord = false := by
  decide

theorem mem_wordRules_of_isWord {r : Rule} (hr : r ∈ rules) (h : r.category.isWord = true) :
    r ∈ wordRules := by
  refine (mem_wordRules_or_otherRules hr).resolve_right ?_
  intro hother
  rw [isWord_otherRules r hother] at h
  exact absurd h (by simp)

theorem nameText_of_matches {r : Rule} (hr : r ∈ wordRules) {w : List Char}
    (h : r.pattern.Matches w) : NameText (String.ofList w) := by
  rcases List.mem_append.1 hr with hr | hr
  · obtain ⟨k, hk, rfl⟩ := List.mem_map.1 hr
    left
    rw [Keyword.ofText?, ne_eq, List.find?_eq_none, String.toList_ofList]
    intro hnone
    exact hnone k hk (matches_word_isEqv_iff.1 h)
  · rw [List.mem_singleton] at hr
    subst hr
    right
    rw [String.toList_ofList]
    exact h

theorem isOwn_of_isWord {k : Kind} (h : (Category.token k).isWord = true) : k.isOwn = true := by
  cases k with
  | identifier => rfl
  | keyword w => rfl
  | _ => simp [Category.isWord] at h

theorem nameText_of_codeLexeme {c : Char} {cs : List Char}
    (h : (Category.token (codeLexeme (c :: cs)).1).isWord = true) :
    NameText (String.ofList ((c :: cs).take (codeLexeme (c :: cs)).2)) := by
  obtain ⟨n, r, -, hlexeme, hr, hcategory, hmatches⟩ :=
    exists_rule_of_codeLexeme (isOwn_of_isWord h) rfl
  have hclose : (codeLexeme (c :: cs)).1 ≠ .closeTag := by
    intro hkind
    rw [hkind] at h
    exact absurd h (by simp [Category.isWord])
  rw [hlexeme, lexemeOf, if_neg hclose]
  exact nameText_of_matches (mem_wordRules_of_isWord hr (by rw [hcategory]; exact h)) hmatches

theorem nameText_of_mem_lexemesFrom {mode : Mode} {skip : Nat} {cs : List Char} {t : Token}
    (h : t ∈ lexemesFrom mode skip cs) (hword : (Category.token t.kind).isWord = true) :
    NameText t.text := by
  induction cs generalizing mode skip with
  | nil => simp [lexemesFrom] at h
  | cons c cs ih =>
    cases skip with
    | succ k => exact ih h
    | zero =>
      rw [lexemesFrom_cons] at h
      rcases List.mem_cons.1 h with rfl | h
      · unfold lexeme at hword ⊢
        split
        · exact nameText_of_codeLexeme hword
        · split
          · next hzero =>
            rw [hzero] at hword
            exact nameText_of_codeLexeme hword
          · next hne =>
            dsimp only at hword
            split at hword
            · next hzero => exact absurd hzero hne
            · exact absurd hword (by simp [Category.isWord])
      · exact ih h

theorem exists_of_mem_resolveNamesAfter {p : Preceding} {us : List Token} {t : Token}
    (h : t ∈ resolveNamesAfter p us) (hkind : t.kind = .identifier) :
    ∃ u ∈ us, u.text = t.text ∧ (Category.token u.kind).isWord = true := by
  induction us generalizing p with
  | nil => simp [resolveNamesAfter] at h
  | cons u us ih =>
    rw [resolveNamesAfter] at h
    rcases List.mem_cons.1 h with rfl | h
    · refine ⟨u, List.mem_cons_self, rfl, ?_⟩
      dsimp only at hkind
      cases hu : u.kind with
      | keyword w => rfl
      | identifier => rfl
      | _ => rw [hu] at hkind; simp [Preceding.resolve] at hkind
    · obtain ⟨v, hv, hprops⟩ := ih h
      exact ⟨v, List.mem_cons_of_mem _ hv, hprops⟩

/-- Every identifier of a source is one word to the lexer, though perhaps a reserved one in name
position. -/
theorem nameText_of_identifier {source : String} {t : Token} (h : t ∈ tokenize source)
    (hkind : t.kind = .identifier) : NameText t.text := by
  obtain ⟨u, hu, htext, hword⟩ := exists_of_mem_resolveNamesAfter h hkind
  rw [← htext]
  exact nameText_of_mem_lexemesFrom hu hword

end PhpImports
