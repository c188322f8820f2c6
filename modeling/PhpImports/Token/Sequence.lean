import Std.Data.ExtTreeMap
import PhpImports.Token.Block

/-!
# PhpImports — token sequences

The tokens of one source unit, with a tally of the kinds among them. Positions are
counted from zero. The tally lets a unit be passed over without a scan; it holds an
entry for the kinds that occur and for no others, so two sequences with the same
tokens are the same value however they were made.

* `TokenSeq.ofList` — the sequence of given tokens.
* `TokenSeq.splice`, `TokenSeq.insertAt`, `TokenSeq.insertEach` — put tokens in at a position.
* `TokenSeq.nextMeaningful?`, `TokenSeq.prevMeaningful?` — neighbours over trivia.
* `TokenSeq.nextOfKind?`, `TokenSeq.blockEnd?` — look ahead.
* `TokenSeq.hasKind`, `TokenSeq.hasAnyKind` — questions to the tally.
* `TokenSeq.source` — the text, written back.
-/

namespace PhpImports

/-- How often each kind occurs. -/
abbrev KindTally := Std.ExtTreeMap Kind Nat

namespace KindTally

/-- Counts one more token of a kind. -/
def add (m : KindTally) (k : Kind) : KindTally :=
  m.alter k fun n => some (n.getD 0 + 1)

/-- Counts the tokens of a list. -/
def addAll (m : KindTally) (ts : List Token) : KindTally :=
  ts.foldl (fun m t => m.add t.kind) m

theorem getElem?_add (m : KindTally) (j k : Kind) :
    (m.add j)[k]? = if j = k then some (m[j]?.getD 0 + 1) else m[k]? := by
  simp only [add, Std.ExtTreeMap.getElem?_alter, Std.LawfulEqOrd.compare_eq_iff_eq]

theorem addAll_append (m : KindTally) (ts us : List Token) :
    m.addAll (ts ++ us) = (m.addAll ts).addAll us :=
  List.foldl_append

end KindTally

/-- The tokens of a source unit with the tally of their kinds. -/
structure TokenSeq where
  tokens : List Token
  tally : KindTally
  deriving DecidableEq

namespace TokenSeq

/-- The sequence of given tokens. -/
def ofList (ts : List Token) : TokenSeq :=
  ⟨ts, KindTally.addAll ∅ ts⟩

/-- Number of tokens. -/
def length (s : TokenSeq) : Nat :=
  s.tokens.length

/-- Whether there are no tokens. -/
def isEmpty (s : TokenSeq) : Bool :=
  s.tokens.isEmpty

/-- The text of the unit. -/
def source (s : TokenSeq) : String :=
  sourceText s.tokens

/-- Kind of the token at a position, if there is one. -/
def kindAt? (s : TokenSeq) (i : Nat) : Option Kind :=
  s.tokens[i]?.map Token.kind

/-- Position of the first token after position `i` that satisfies `p`. -/
def next? (s : TokenSeq) (p : Token → Bool) (i : Nat) : Option Nat :=
  ((s.tokens.drop (i + 1)).findIdx? p).map (i + 1 + ·)

/-- Position of the last token before position `i` that satisfies `p`. -/
def prev? (s : TokenSeq) (p : Token → Bool) (i : Nat) : Option Nat :=
  let before := s.tokens.take i
  (before.reverse.findIdx? p).map (before.length - 1 - ·)

/-- Position of the first token after `i` that is not trivia. -/
def nextMeaningful? (s : TokenSeq) (i : Nat) : Option Nat :=
  s.next? Token.isMeaningful i

/-- Position of the last token before `i` that is not trivia. -/
def prevMeaningful? (s : TokenSeq) (i : Nat) : Option Nat :=
  s.prev? Token.isMeaningful i

/-- Position of the first token after `i` whose kind is one of `ks`. -/
def nextOfKind? (s : TokenSeq) (ks : List Kind) (i : Nat) : Option Nat :=
  s.next? (fun t => ks.contains t.kind) i

/-- Position of the bracket that closes the block opened at `i`; there is none if no block
opens at `i` or if it is never closed. -/
def blockEnd? (s : TokenSeq) (b : Bracket) (i : Nat) : Option Nat :=
  (leadingBlock? b (s.tokens.drop i)).map fun (body, _) => i + 1 + body.length

/-- Puts a block of tokens in before position `i`, or at the end if `i` lies beyond it. -/
def splice (s : TokenSeq) (i : Nat) (block : List Token) : TokenSeq :=
  ⟨s.tokens.take i ++ block ++ s.tokens.drop i, s.tally.addAll block⟩

/-- Puts one token in before position `i`, or at the end if `i` lies beyond it. -/
def insertAt (s : TokenSeq) (i : Nat) (t : Token) : TokenSeq :=
  s.splice i [t]

/-- Puts in tokens one after another, the first before position `i` and each behind the one
before it. -/
def insertEach (s : TokenSeq) (i : Nat) : List Token → TokenSeq
  | [] => s
  | t :: ts => (s.insertAt i t).insertEach (i + 1) ts

/-- Whether a token of a kind is present, by the tally. -/
def hasKind (s : TokenSeq) (k : Kind) : Bool :=
  s.tally[k]?.any (0 < ·)

/-- Whether a token of one of the kinds is present, by the tally. -/
def hasAnyKind (s : TokenSeq) (ks : List Kind) : Bool :=
  ks.any s.hasKind

@[simp] theorem tokens_ofList (ts : List Token) : (ofList ts).tokens = ts := rfl

@[simp] theorem tokens_splice (s : TokenSeq) (i : Nat) (block : List Token) :
    (s.splice i block).tokens = s.tokens.take i ++ block ++ s.tokens.drop i := rfl

theorem length_splice (s : TokenSeq) (i : Nat) (block : List Token) :
    (s.splice i block).length = s.length + block.length := by
  simp only [length, tokens_splice, List.length_append, List.length_take, List.length_drop]
  omega

theorem take_insertAt (s : TokenSeq) (i : Nat) (t : Token) :
    (s.insertAt i t).tokens.take (i + 1) = s.tokens.take i ++ [t] := by
  rw [insertAt, tokens_splice]
  rcases Nat.le_total i s.tokens.length with h | h
  · have hlength : (s.tokens.take i ++ [t]).length = i + 1 := by
      rw [List.length_append, List.length_take_of_le h, List.length_singleton]
    exact List.take_left' hlength
  · rw [List.take_of_length_le h, List.drop_of_length_le h, List.append_nil]
    refine List.take_of_length_le ?_
    rw [List.length_append, List.length_singleton]
    omega

theorem drop_insertAt (s : TokenSeq) (i : Nat) (t : Token) :
    (s.insertAt i t).tokens.drop (i + 1) = s.tokens.drop i := by
  have hcut := List.take_append_drop (i + 1) (s.insertAt i t).tokens
  rw [take_insertAt] at hcut
  exact List.append_cancel_left hcut

/-- Tokens put in one after another stand as one block. -/
theorem insertEach_eq_splice (s : TokenSeq) (i : Nat) (block : List Token) :
    s.insertEach i block = s.splice i block := by
  induction block generalizing s i with
  | nil => simp [insertEach, splice, KindTally.addAll]
  | cons t ts ih =>
    rw [insertEach, ih, splice, splice, take_insertAt, drop_insertAt, List.append_cons _ t ts]
    rfl

end TokenSeq

end PhpImports
