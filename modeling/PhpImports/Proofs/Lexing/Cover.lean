import Mathlib
import PhpImports.Lexing.Basic

/-!
# PhpImports — tokens cover the source

Lexing loses nothing and makes nothing up. Every token takes at least one character
and never more than there are, whatever the text: comments, strings and heredocs
without an end, characters that no rule begins with, and markup all have their token.

## Results

* `lexeme_le` — a token never reaches beyond the text.
* `lexemesFrom_eq` — the first token of a text and the tokens after it.
* `exists_of_resolveNamesAfter_eq` — tokens cut at one of them, before names are told apart.
* `tokenize_lossless` — no token is empty, and the tokens make up the source.
-/

namespace PhpImports

-- ---------------------------------------------------------------------------
-- Tokens stay within the text
-- ---------------------------------------------------------------------------

/-- Following the rules never goes beyond the text, and no match is longer than what was
followed. -/
theorem follow_le (live : List Rule) (n : Nat) (longest : Option (Category × Nat))
    (cs : List Char) (h : ∀ m ∈ longest, m.2 ≤ n) :
    (follow live n longest cs).reach ≤ n + cs.length ∧
      ∀ m ∈ (follow live n longest cs).longest, m.2 ≤ n + cs.length := by
  induction cs generalizing live n longest with
  | nil => exact ⟨Nat.le_refl _, h⟩
  | cons c cs ih =>
    have hlen : n + (c :: cs).length = n + 1 + cs.length := by
      rw [List.length_cons]
      omega
    rw [follow]
    split
    · -- no rule can go on with `c`
      refine ⟨Nat.le_add_right _ _, ?_⟩
      intro m hm
      have := h m hm
      omega
    · rw [hlen]
      apply ih
      intro m hm
      cases ha : accepted? (advance c live) with
      | none =>
        rw [ha] at hm
        have := h m hm
        omega
      | some k =>
        rw [ha] at hm
        cases hm
        exact Nat.le_refl _

theorem longestMatch_le (cs : List Char) :
    (longestMatch cs).reach ≤ cs.length ∧ ∀ m ∈ (longestMatch cs).longest, m.2 ≤ cs.length := by
  have h := follow_le rules 0 none cs nofun
  rwa [Nat.zero_add] at h

theorem closingLabel?_le {label cs : List Char} {n : Nat} (h : closingLabel? label cs = some n) :
    n ≤ cs.length := by
  unfold closingLabel? at h
  dsimp only at h
  split at h
  · next hclose =>
    cases h
    rw [Bool.and_eq_true, List.isPrefixOf_iff_prefix] at hclose
    have hlabel := hclose.1.length_le
    have hsplit := congrArg List.length (List.takeWhile_append_dropWhile (p := isIndent) (l := cs))
    rw [List.length_append] at hsplit
    omega
  · simp at h

theorem heredocBodyLength_le (label : List Char) (lineStart : Bool) (cs : List Char) :
    heredocBodyLength label lineStart cs ≤ cs.length := by
  induction cs generalizing lineStart with
  | nil => simp [heredocBodyLength]
  | cons c cs ih =>
    unfold heredocBodyLength
    split
    · next n hn =>
      split at hn
      · exact closingLabel?_le hn
      · simp at hn
    · have := ih (c == '\n')
      rw [List.length_cons]
      omega

theorem lineBreakLength_le (cs : List Char) : lineBreakLength cs ≤ cs.length := by
  unfold lineBreakLength
  split <;> simp

theorem codeLexeme_le (c : Char) (cs : List Char) :
    (codeLexeme (c :: cs)).2 ≤ (c :: cs).length := by
  obtain ⟨hreach, hlongest⟩ := longestMatch_le (c :: cs)
  unfold codeLexeme
  dsimp only
  split
  · -- an error
    have : 1 ≤ (c :: cs).length := Nat.le_add_left 1 _
    exact Nat.max_le.2 ⟨this, hreach⟩
  · next n hm => exact hlongest _ hm
  · -- a heredoc, through its body
    next n hm =>
    have hn := hlongest _ hm
    have hbody := heredocBodyLength_le (heredocLabel ((c :: cs).take n)) true ((c :: cs).drop n)
    rw [List.length_drop] at hbody
    dsimp only at hn ⊢
    omega
  · -- a close tag, through the line break behind it
    next n hm =>
    have hn := hlongest _ hm
    have hbreak := lineBreakLength_le ((c :: cs).drop n)
    rw [List.length_drop] at hbreak
    dsimp only at hn ⊢
    omega
  · next hm => exact hlongest _ hm

/-- A token never reaches beyond the text. -/
theorem lexeme_le (mode : Mode) (c : Char) (cs : List Char) :
    (lexeme mode (c :: cs)).2 ≤ (c :: cs).length := by
  unfold lexeme
  split
  · exact codeLexeme_le c cs
  · split
    · exact codeLexeme_le c cs
    · exact markupLength_le _

-- ---------------------------------------------------------------------------
-- Token by token
-- ---------------------------------------------------------------------------

theorem lexemesFrom_skip (mode : Mode) (skip : Nat) (cs : List Char) :
    lexemesFrom mode skip cs = lexemesFrom mode 0 (cs.drop skip) := by
  induction cs generalizing skip with
  | nil => simp [lexemesFrom]
  | cons c cs ih =>
    cases skip with
    | zero => rfl
    | succ k =>
      rw [lexemesFrom, ih]
      rfl

theorem lexemesFrom_cons (mode : Mode) (c : Char) (cs : List Char) :
    lexemesFrom mode 0 (c :: cs) =
      ⟨(lexeme mode (c :: cs)).1, String.ofList ((c :: cs).take (lexeme mode (c :: cs)).2)⟩ ::
        lexemesFrom (Mode.after (lexeme mode (c :: cs)).1) ((lexeme mode (c :: cs)).2 - 1) cs :=
  rfl

/-- The first token of a text, and the tokens after it. -/
theorem lexemesFrom_eq (mode : Mode) (c : Char) (cs : List Char) :
    lexemesFrom mode 0 (c :: cs) =
      ⟨(lexeme mode (c :: cs)).1, String.ofList ((c :: cs).take (lexeme mode (c :: cs)).2)⟩ ::
        lexemesFrom (Mode.after (lexeme mode (c :: cs)).1) 0
          ((c :: cs).drop (lexeme mode (c :: cs)).2) := by
  have hpos := one_le_lexeme mode c cs
  have hdrop : (c :: cs).drop (lexeme mode (c :: cs)).2
      = cs.drop ((lexeme mode (c :: cs)).2 - 1) := by
    obtain ⟨n, hn⟩ : ∃ n, (lexeme mode (c :: cs)).2 = n + 1 :=
      ⟨_, (Nat.sub_add_cancel hpos).symm⟩
    rw [hn]
    rfl
  rw [hdrop, ← lexemesFrom_skip, lexemesFrom_cons]

theorem text_ne_empty_of_mem_lexemesFrom {mode : Mode} {skip : Nat} {cs : List Char} {t : Token}
    (h : t ∈ lexemesFrom mode skip cs) : t.text ≠ "" := by
  induction cs generalizing mode skip with
  | nil => simp [lexemesFrom] at h
  | cons c cs ih =>
    cases skip with
    | succ k => exact ih h
    | zero =>
      rw [lexemesFrom_cons] at h
      rcases List.mem_cons.1 h with ht | h
      · have hpos := one_le_lexeme mode c cs
        obtain ⟨n, hn⟩ : ∃ n, (lexeme mode (c :: cs)).2 = n + 1 :=
          ⟨_, (Nat.sub_add_cancel hpos).symm⟩
        rw [ht, hn]
        intro hempty
        have hchars := congrArg String.toList hempty
        simp at hchars
      · exact ih h

-- ---------------------------------------------------------------------------
-- Resolved tokens
-- ---------------------------------------------------------------------------

/-- What is known after the given tokens. -/
def Preceding.past (p : Preceding) : List Token → Preceding
  | [] => p
  | t :: ts => (p.push (p.resolve t.kind)).past ts

theorem resolveNamesAfter_append (p : Preceding) (us vs : List Token) :
    resolveNamesAfter p (us ++ vs) =
      resolveNamesAfter p us ++ resolveNamesAfter (p.past us) vs := by
  induction us generalizing p with
  | nil => rfl
  | cons t us ih => rw [List.cons_append, resolveNamesAfter, resolveNamesAfter, ih]; rfl

/-- Resolved tokens, cut at one of them. -/
theorem exists_of_resolveNamesAfter_eq {p : Preceding} {ts pre post : List Token} {t : Token}
    (h : resolveNamesAfter p ts = pre ++ t :: post) :
    ∃ us u vs, ts = us ++ u :: vs ∧ resolveNamesAfter p us = pre ∧
      t = ⟨(p.past us).resolve u.kind, u.text⟩ ∧
      resolveNamesAfter ((p.past us).push t.kind) vs = post := by
  induction pre generalizing p ts with
  | nil =>
    cases ts with
    | nil => simp [resolveNamesAfter] at h
    | cons u vs =>
      rw [resolveNamesAfter, List.nil_append, List.cons.injEq] at h
      obtain ⟨rfl, hpost⟩ := h
      exact ⟨[], u, vs, rfl, rfl, rfl, hpost⟩
  | cons x pre ih =>
    cases ts with
    | nil => simp [resolveNamesAfter] at h
    | cons u ts =>
      rw [resolveNamesAfter, List.cons_append, List.cons.injEq] at h
      obtain ⟨hx, hrest⟩ := h
      obtain ⟨us, v, vs, rfl, hpre, ht, hpost⟩ := ih hrest
      refine ⟨u :: us, v, vs, rfl, ?_, ht, hpost⟩
      rw [resolveNamesAfter, hx, hpre]

-- ---------------------------------------------------------------------------
-- The whole source
-- ---------------------------------------------------------------------------

/-- Whether reserved words are names does not change their texts. -/
theorem flatMap_text_resolveNamesAfter (p : Preceding) (ts : List Token) :
    (resolveNamesAfter p ts).flatMap (·.text.toList) = ts.flatMap (·.text.toList) := by
  have htexts := congrArg (List.flatMap String.toList) (map_text_resolveNamesAfter p ts)
  rwa [List.flatMap_map, List.flatMap_map] at htexts

theorem source_ofSource (source : String) : (TokenSeq.ofSource source).source = source := by
  apply String.toList_inj.1
  rw [TokenSeq.source, toList_sourceText]
  show (tokenize source).flatMap (·.text.toList) = source.toList
  rw [tokenize, resolveNames, flatMap_text_resolveNamesAfter, lexemes, flatMap_text_lexemesFrom]
  rfl

theorem text_ne_empty_of_mem_tokenize {source : String} {t : Token} (h : t ∈ tokenize source) :
    t.text ≠ "" := by
  have htext : t.text ∈ (tokenize source).map Token.text := List.mem_map_of_mem h
  rw [tokenize, resolveNames, map_text_resolveNamesAfter] at htext
  obtain ⟨u, hu, hut⟩ := List.mem_map.1 htext
  rw [← hut]
  exact text_ne_empty_of_mem_lexemesFrom hu

/-- Lexing is lossless. Each token takes at least one character of the text that is left and
at most all of them, so that lexing comes to an end; no token is empty; and the texts of the
tokens, joined, are the source. -/
theorem tokenize_lossless (source : String) :
    (∀ (mode : Mode) (c : Char) (cs : List Char),
      1 ≤ (lexeme mode (c :: cs)).2 ∧ (lexeme mode (c :: cs)).2 ≤ (c :: cs).length) ∧
    (∀ t ∈ tokenize source, t.text ≠ "") ∧
    (TokenSeq.ofSource source).source = source :=
  ⟨fun mode c cs => ⟨one_le_lexeme mode c cs, lexeme_le mode c cs⟩,
    fun _ => text_ne_empty_of_mem_tokenize, source_ofSource source⟩

/-- A source with markup, a stray character and a heredoc without an end. -/
theorem tokenize_lossless_unended :
    (tokenize "<p>é<?php é <<<E\n ?>").map Token.text =
        ["<p>é", "<?php", " ", "é", " ", "<<<E\n ?>"] ∧
      (∀ t ∈ tokenize "<p>é<?php é <<<E\n ?>", t.text ≠ "") ∧
      (TokenSeq.ofSource "<p>é<?php é <<<E\n ?>").source = "<p>é<?php é <<<E\n ?>" := by
  obtain ⟨-, hnonempty, hsource⟩ := tokenize_lossless "<p>é<?php é <<<E\n ?>"
  exact ⟨by cbv, hnonempty, hsource⟩

end PhpImports
