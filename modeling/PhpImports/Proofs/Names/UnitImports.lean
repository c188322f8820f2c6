import PhpImports.Proofs.Names.Grammar
import PhpImports.Proofs.Names.ImportBlock

/-!
# PhpImports — the imports of well-formed units

In a well-formed unit the scan for imports finds the imports of its tree, no more and no
less, at any depth of namespaces and code, whatever trivia stands between the tokens.

The proof follows the grammar. A part of a `use` statement is read where imports may
stand, and is passed over without a trace inside a plain block; an element leaves the
scan where the next one may begin, with the same braces open.

## Results

* `UsePart` — parts of `use` statements, and the names that they bind.
* `ImportScan.AtStart`, `ImportScan.Reads` — where the scan stands between elements, and
  what it has read.
* `ImportScan.scans_elements` — the scan of elements.
* `importScan_sourceUnit` — the imports of a unit.
-/

namespace PhpImports

-- ---------------------------------------------------------------------------
-- Tokens that the scan takes no notice of
-- ---------------------------------------------------------------------------

/-- The kinds that neither open nor close anything and begin nothing. -/
def Kind.isQuiet (k : Kind) : Bool :=
  k ≠ .lBrace && k ≠ .rBrace && k ≠ .semicolon && k ≠ .keyword .namespaceKw &&
    k ≠ .keyword .useKw

/-- The kinds of tokens in a clause, and of the words before it. -/
def Kind.isClausePart : Kind → Bool
  | .identifier | .nsSeparator | .keyword .asKw | .keyword .functionKw | .keyword .constKw => true
  | _ => false

theorem Kind.unmarked_of_isClausePart {k : Kind} (h : k.isClausePart = true) :
    k.isClauseMark = false ∧ k.isQuiet = true := by
  unfold isClausePart at h
  split at h
  · exact ⟨rfl, rfl⟩
  · exact ⟨rfl, rfl⟩
  · exact ⟨rfl, rfl⟩
  · exact ⟨rfl, rfl⟩
  · exact ⟨rfl, rfl⟩
  · simp at h

namespace ImportScan

/-- A step that only notes the kind of the token. -/
theorem step_eq_of_plain {s : ImportScan} {t : Placed} {ts : List Placed} (hskip : s.skip = 0)
    (hopen : t.kind ≠ .lBrace) (hclose : t.kind ≠ .rBrace) (hstop : t.kind ≠ .semicolon)
    (hns : t.kind = .keyword .namespaceKw → ts.head?.any (·.kind ≠ .nsSeparator) = s.awaitsBody)
    (huse : t.kind = .keyword .useKw → s.allowsImport = false) :
    s.step t ts = { s with last := some t.kind } := by
  unfold step
  rw [hskip]
  dsimp only
  split
  · next h => rw [hns h]
  · next h => exact absurd h hstop
  · next h => exact absurd h hopen
  · next h => exact absurd h hclose
  · next h => rw [huse h]; rfl
  · rfl

section Steps

variable {s : ImportScan} {t : Placed} (ts : List Placed)

theorem step_of_stop (hskip : s.skip = 0) (ht : t.kind = .semicolon) :
    s.step t ts = { s with awaitsBody := false, last := some .semicolon } := by
  simp [step, hskip, ht]

theorem step_of_opener (hskip : s.skip = 0) (ht : t.kind = .lBrace) :
    s.step t ts =
      { s with
        braces := (if s.awaitsBody then .namespaceBody else .code) :: s.braces
        awaitsBody := false
        last := some .lBrace } := by
  simp [step, hskip, ht]

theorem step_of_closer (hskip : s.skip = 0) (ht : t.kind = .rBrace) :
    s.step t ts = { s with braces := s.braces.tail, last := some .rBrace } := by
  simp [step, hskip, ht]

end Steps

theorem past_quiet {s : ImportScan} {ps : List Placed} (vs : List Placed)
    (h : ∀ p ∈ ps, p.kind.isQuiet = true) (hskip : s.skip = 0) :
    ∃ k, s.past ps vs = { s with last := k } := by
  induction ps generalizing s with
  | nil => exact ⟨s.last, rfl⟩
  | cons p ps ih =>
    have hp := h p List.mem_cons_self
    simp only [Kind.isQuiet, Bool.and_eq_true, decide_eq_true_eq] at hp
    obtain ⟨⟨⟨⟨hopen, hclose⟩, hstop⟩, hns⟩, huse⟩ := hp
    have hstep : s.step p (ps ++ vs) = { s with last := some p.kind } :=
      step_eq_of_plain hskip hopen hclose hstop (absurd · hns) (absurd · huse)
    rw [past, hstep]
    exact ih (s := { s with last := some p.kind })
      (fun q hq => h q (List.mem_cons_of_mem _ hq)) hskip

end ImportScan

-- ---------------------------------------------------------------------------
-- Parts of `use` statements
-- ---------------------------------------------------------------------------

/-- Tokens that may stand in a `use` statement and bind names. -/
structure UsePart (ts : List Token) (names : List String) : Prop where
  /-- When they are read they bind the names, but for one that the next mark may bind. -/
  reads : ∀ (last : Option String) (ps vs : List Placed), ps.map Placed.toToken = ts →
    ∃ bound pending, bound ++ pending.toList = names ∧
      readClauses last (ps ++ vs) =
        ⟨bound ++ (readClauses pending vs).names, (readClauses pending vs).stop⟩
  /-- In code they are passed over. -/
  passes : ∀ (s : ImportScan) (ps vs : List Placed), ps.map Placed.toToken = ts →
    s.skip = 0 → s.awaitsBody = false → ∃ k, s.past ps vs = { s with last := k }
  /-- They do not end the statement. -/
  unended : ∀ t ∈ ts, t.kind ≠ .semicolon

namespace UsePart

/-- An identifier is bound by the mark behind it. -/
theorem identifier (t : TokenOf .identifier) : UsePart [t.1] [t.1.text] where
  reads := by
    intro last ps vs hps
    obtain ⟨p, rfl, hp⟩ := List.map_eq_singleton_iff.1 hps
    have hkind : p.kind = .identifier := by rw [hp, t.2]
    have htext : p.text = t.1.text := by rw [hp]
    refine ⟨[], some t.1.text, rfl, ?_⟩
    simp [readClauses, hkind, htext]
  passes := by
    intro s ps vs hps hskip _
    obtain ⟨p, rfl, hp⟩ := List.map_eq_singleton_iff.1 hps
    refine s.past_quiet vs (fun q hq => ?_) hskip
    rw [List.mem_singleton.1 hq, hp, t.2]
    rfl
  unended := by
    intro u hu
    rw [List.mem_singleton.1 hu, t.2]
    simp

/-- What stands in a clause before a part makes no difference. -/
theorem append_left {us ts : List Token} {names : List String}
    (hus : ∀ t ∈ us, t.kind.isClausePart = true) (h : UsePart ts names) :
    UsePart (us ++ ts) names where
  reads := by
    intro last ps vs hps
    obtain ⟨qs, rs, rfl, rfl, hrs⟩ := List.map_eq_append_iff.1 hps
    have hmarks : ∀ p ∈ qs, p.kind.isClauseMark = false := fun p hp =>
      (Kind.unmarked_of_isClausePart (hus p.toToken (List.mem_map_of_mem hp))).1
    rw [List.append_assoc, readClauses_append_of_not_mark _ hmarks]
    exact h.reads _ rs vs hrs
  passes := by
    intro s ps vs hps hskip hawaits
    obtain ⟨qs, rs, rfl, rfl, hrs⟩ := List.map_eq_append_iff.1 hps
    obtain ⟨k, hk⟩ := s.past_quiet (rs ++ vs)
      (fun p hp => (Kind.unmarked_of_isClausePart (hus p.toToken (List.mem_map_of_mem hp))).2) hskip
    obtain ⟨k', hk'⟩ := h.passes { s with last := k } rs vs hrs hskip hawaits
    exact ⟨k', by rw [ImportScan.past_append, hk, hk']⟩
  unended := by
    intro t ht hstop
    rcases List.mem_append.1 ht with ht | ht
    · have hpart := hus t ht
      rw [hstop] at hpart
      simp [Kind.isClausePart] at hpart
    · exact h.unended t ht hstop

/-- Two parts with a comma between them. -/
theorem join {ts us : List Token} {names names' : List String} (h : UsePart ts names)
    {c : Token} (hc : c.kind = .comma) (h' : UsePart us names') :
    UsePart (ts ++ c :: us) (names ++ names') where
  reads := by
    intro last ps vs hps
    obtain ⟨qs, rest, rfl, hqs, hrest⟩ := List.map_eq_append_iff.1 hps
    obtain ⟨p, rs, rfl, rfl, hrs⟩ := List.map_eq_cons_iff.1 hrest
    obtain ⟨bound, pending, rfl, hread⟩ := h.reads last qs (p :: (rs ++ vs)) hqs
    obtain ⟨bound', pending', rfl, hread'⟩ := h'.reads none rs vs hrs
    refine ⟨bound ++ pending.toList ++ bound', pending', by simp, ?_⟩
    rw [List.append_assoc, List.cons_append, hread]
    simp [readClauses, hc, hread']
  passes := by
    intro s ps vs hps hskip hawaits
    obtain ⟨qs, rest, rfl, hqs, hrest⟩ := List.map_eq_append_iff.1 hps
    obtain ⟨p, rs, rfl, rfl, hrs⟩ := List.map_eq_cons_iff.1 hrest
    obtain ⟨k, hk⟩ := h.passes s qs (p :: (rs ++ vs)) hqs hskip hawaits
    have hcomma : ∀ q ∈ [p], q.kind.isQuiet = true := by
      intro q hq
      rw [List.mem_singleton.1 hq, hc]
      rfl
    obtain ⟨k', hk'⟩ := ImportScan.past_quiet (s := { s with last := k }) (rs ++ vs) hcomma hskip
    obtain ⟨k'', hk''⟩ := h'.passes { s with last := k' } rs vs hrs hskip hawaits
    refine ⟨k'', ?_⟩
    rw [ImportScan.past_append, List.cons_append, hk, ← List.singleton_append (x := p),
      ImportScan.past_append, hk', hk'']
  unended := by
    intro t ht hstop
    rcases List.mem_append.1 ht with ht | ht
    · exact h.unended t ht hstop
    rcases List.mem_cons.1 ht with rfl | ht
    · rw [hc] at hstop
      simp at hstop
    · exact h'.unended t ht hstop

/-- A comma at the end of a part binds the name that is still to be bound. -/
theorem trailing {ts : List Token} {names : List String} (h : UsePart ts names)
    (c : Option (TokenOf .comma)) : UsePart (ts ++ (c.map Subtype.val).toList) names := by
  cases c with
  | none => simpa using h
  | some c =>
    refine ⟨?_, ?_, ?_⟩
    · intro last ps vs hps
      obtain ⟨qs, rest, rfl, hqs, hrest⟩ := List.map_eq_append_iff.1 hps
      obtain ⟨p, rfl, hp⟩ := List.map_eq_singleton_iff.1 hrest
      have hkind : p.kind = .comma := by rw [hp, c.2]
      obtain ⟨bound, pending, rfl, hread⟩ := h.reads last qs (p :: vs) hqs
      refine ⟨bound ++ pending.toList, none, by simp, ?_⟩
      rw [List.append_assoc, List.singleton_append, hread]
      simp [readClauses, hkind]
    · intro s ps vs hps hskip hawaits
      obtain ⟨qs, rest, rfl, hqs, hrest⟩ := List.map_eq_append_iff.1 hps
      obtain ⟨p, rfl, hp⟩ := List.map_eq_singleton_iff.1 hrest
      obtain ⟨k, hk⟩ := h.passes s qs ([p] ++ vs) hqs hskip hawaits
      have hcomma : ∀ q ∈ [p], q.kind.isQuiet = true := by
        intro q hq
        rw [List.mem_singleton.1 hq, hp, c.2]
        rfl
      obtain ⟨k', hk'⟩ := ImportScan.past_quiet (s := { s with last := k }) vs hcomma hskip
      exact ⟨k', by rw [ImportScan.past_append, hk, hk']⟩
    · intro t ht hstop
      rcases List.mem_append.1 ht with ht | ht
      · exact h.unended t ht hstop
      · rw [List.mem_singleton.1 ht, c.2] at hstop
        simp at hstop

/-- A part in braces. -/
theorem braced {ts : List Token} {names : List String} (h : UsePart ts names) {o c : Token}
    (ho : o.kind = .lBrace) (hc : c.kind = .rBrace) : UsePart (o :: (ts ++ [c])) names where
  reads := by
    intro last ps vs hps
    obtain ⟨p, rest, rfl, rfl, hrest⟩ := List.map_eq_cons_iff.1 hps
    obtain ⟨qs, rest, rfl, hqs, hrest⟩ := List.map_eq_append_iff.1 hrest
    obtain ⟨q, rfl, rfl⟩ := List.map_eq_singleton_iff.1 hrest
    obtain ⟨bound, pending, rfl, hread⟩ := h.reads none qs (q :: vs) hqs
    refine ⟨bound ++ pending.toList, none, by simp, ?_⟩
    rw [List.cons_append, List.append_assoc, List.singleton_append, readClauses]
    simp only [ho]
    rw [hread]
    simp [readClauses, hc]
  passes := by
    intro s ps vs hps hskip hawaits
    obtain ⟨p, rest, rfl, rfl, hrest⟩ := List.map_eq_cons_iff.1 hps
    obtain ⟨qs, rest, rfl, hqs, hrest⟩ := List.map_eq_append_iff.1 hrest
    obtain ⟨q, rfl, rfl⟩ := List.map_eq_singleton_iff.1 hrest
    -- the brace is open while the part is passed over
    obtain ⟨k, hk⟩ := h.passes
      { s with braces := .code :: s.braces, awaitsBody := false, last := some .lBrace }
      qs ([q] ++ vs) hqs hskip rfl
    refine ⟨some .rBrace, ?_⟩
    rw [ImportScan.past, ImportScan.step_of_opener _ hskip ho, hawaits, if_neg Bool.false_ne_true,
      ImportScan.past_append, hk]
    simp [ImportScan.past, ImportScan.step_of_closer _ _ hc, hskip]
  unended := by
    intro t ht hstop
    rcases List.mem_cons.1 ht with rfl | ht
    · rw [ho] at hstop
      simp at hstop
    rcases List.mem_append.1 ht with ht | ht
    · exact h.unended t ht hstop
    · rw [List.mem_singleton.1 ht, hc] at hstop
      simp at hstop

/-- Parts of a list with commas between them. -/
theorem commaList {α : Type} {f : α → List Token} {g : α → List String} {l : CommaList α}
    (h : ∀ a ∈ l.toList, UsePart (f a) (g a)) : UsePart (l.tokens f) (l.toList.flatMap g) := by
  obtain ⟨head, tail⟩ := l
  induction tail generalizing head with
  | nil => simpa [CommaList.tokens, CommaList.toList] using h head (by simp [CommaList.toList])
  | cons x tail ih =>
    have hhead : UsePart (f head) (g head) := h head (by simp [CommaList.toList])
    have htail := ih x.2 fun a ha => h a (List.mem_cons_of_mem _ ha)
    simpa [CommaList.tokens, CommaList.toList] using hhead.join x.1.2 htail

end UsePart

theorem NamePath.isClausePart_of_mem {p : NamePath} {t : Token} (h : t ∈ p.tokens) :
    t.kind.isClausePart = true := by
  rcases List.mem_cons.1 h with rfl | h
  · rw [p.head.2]
    rfl
  · obtain ⟨x, -, hx⟩ := List.mem_flatMap.1 h
    simp only [List.mem_cons, List.not_mem_nil, or_false] at hx
    rcases hx with rfl | rfl
    · rw [x.1.2]
      rfl
    · rw [x.2.2]
      rfl

theorem NamePath.exists_init (p : NamePath) : ∃ init, p.tokens = init ++ [p.last.1] := by
  obtain ⟨head, tail⟩ := p
  induction tail generalizing head with
  | nil => exact ⟨[], rfl⟩
  | cons x tail ih =>
    have hlast : NamePath.last ⟨head, x :: tail⟩ = NamePath.last ⟨x.2, tail⟩ := by
      rw [NamePath.last, NamePath.last, List.getLast?_cons]
      cases tail.getLast? <;> rfl
    obtain ⟨init, hinit⟩ := ih x.2
    refine ⟨head.1 :: x.1.1 :: init, ?_⟩
    rw [hlast, List.cons_append, List.cons_append, ← hinit]
    rfl

theorem NamePath.usePart (p : NamePath) : UsePart p.tokens [p.last.1.text] := by
  obtain ⟨init, hinit⟩ := p.exists_init
  rw [hinit]
  refine (UsePart.identifier p.last).append_left fun t ht => ?_
  exact NamePath.isClausePart_of_mem (hinit ▸ List.mem_append_left _ ht)

theorem UseClause.usePart (c : UseClause) : UsePart c.tokens [c.boundName] := by
  obtain ⟨lead, path, newName⟩ := c
  have hlead : ∀ t ∈ (lead.map Subtype.val).toList, t.kind.isClausePart = true := by
    intro t ht
    obtain ⟨l, -, rfl⟩ := Option.map_eq_some_iff.1 (Option.mem_toList.1 ht)
    rw [l.2]
    rfl
  rw [tokens, List.append_assoc]
  refine UsePart.append_left hlead ?_
  cases newName with
  | none =>
    rw [Option.map_none, Option.getD_none, List.append_nil]
    exact path.usePart
  | some x =>
    have hword : ∀ t ∈ [x.1.1], t.kind.isClausePart = true := by
      intro t ht
      rw [List.mem_singleton.1 ht, x.1.2]
      rfl
    exact UsePart.append_left (fun t ht => NamePath.isClausePart_of_mem ht)
      (UsePart.append_left hword (UsePart.identifier x.2))

theorem Marker.isClausePart_of_mem {m : Option Marker} {t : Token}
    (h : t ∈ (m.map Subtype.val).toList) : t.kind.isClausePart = true := by
  obtain ⟨m, -, rfl⟩ := Option.map_eq_some_iff.1 (Option.mem_toList.1 h)
  rcases m.2 with hm | hm <;> rw [hm] <;> rfl

theorem UseGroup.usePart (g : UseGroup) :
    UsePart g.tokens (g.members.toList.map fun m => m.clause.boundName) := by
  have hmembers := UsePart.commaList (f := GroupMember.tokens) (l := g.members)
    (g := fun m => [m.clause.boundName]) fun m _ =>
      m.clause.usePart.append_left fun t ht => Marker.isClausePart_of_mem ht
  have hhead : ∀ t ∈ g.path.tokens ++ [g.separator.1], t.kind.isClausePart = true := by
    intro t ht
    rcases List.mem_append.1 ht with ht | ht
    · exact NamePath.isClausePart_of_mem ht
    · rw [List.mem_singleton.1 ht, g.separator.2]
      rfl
  have hgroup := ((hmembers.trailing g.trailing).braced g.opened.2 g.closed.2).append_left hhead
  rw [← List.map_eq_flatMap] at hgroup
  simpa [tokens] using hgroup

theorem UseItem.usePart (i : UseItem) : UsePart i.tokens i.boundNames := by
  cases i with
  | clause c => exact c.usePart
  | group g => exact g.usePart

theorem UseStmt.usePart (i : UseStmt) : UsePart i.listTokens i.boundNames :=
  UsePart.append_left (fun _ ht => Marker.isClausePart_of_mem ht)
    (UsePart.commaList fun item _ => item.usePart)

namespace ImportScan

/-- A `use` statement where an import may stand is read. -/
theorem past_useStmt_of_allows {s : ImportScan} {i : UseStmt} {ps : List Placed} {q : Placed}
    (vs : List Placed) (hps : ps.map Placed.toToken = i.openTokens) (hq : q.toToken = i.stop.1)
    (hskip : s.skip = 0) (hallows : s.allowsImport = true) :
    s.past (ps ++ [q]) vs =
      { s with
        names := s.names ++ i.boundNames
        lastEnd := some q.index
        last := some .semicolon } := by
  obtain ⟨p, rs, rfl, hp, hrs⟩ := List.map_eq_cons_iff.1 hps
  have huse : p.kind = .keyword .useKw := by rw [hp, i.word.2]
  have hstop : q.kind = .semicolon := by rw [hq, i.stop.2]
  have hread : readClauses none (rs ++ q :: vs) = ⟨i.boundNames, some q.index⟩ := by
    obtain ⟨bound, pending, hnames, hread⟩ := i.usePart.reads none rs (q :: vs) hrs
    rw [hread, ← hnames]
    simp [readClauses, hstop]
  have hlength : statementLength (rs ++ q :: vs) = rs.length + 1 := by
    refine statementLength_append_stop vs (fun r hr => ?_) hstop
    exact i.usePart.unended r.toToken (hrs ▸ List.mem_map_of_mem hr)
  have hstep : s.step p (rs ++ [q] ++ vs) =
      { s with
        names := s.names ++ i.boundNames
        lastEnd := some q.index
        last := some p.kind
        skip := rs.length + 1 } := by
    rw [List.append_assoc, List.singleton_append]
    unfold step
    rw [hskip]
    simp only [huse, hallows, if_true]
    rw [addImport, hread, hlength]
  rw [List.cons_append, past, hstep, past_skip _ rfl, hstop]
  simp [hskip]

/-- A `use` statement where no import may stand leaves no trace. -/
theorem past_useStmt_of_not_allows {s : ImportScan} {i : UseStmt} {ps : List Placed} {q : Placed}
    (vs : List Placed) (hps : ps.map Placed.toToken = i.openTokens) (hq : q.toToken = i.stop.1)
    (hskip : s.skip = 0) (hawaits : s.awaitsBody = false) (hallows : s.allowsImport = false) :
    s.past (ps ++ [q]) vs = { s with last := some .semicolon } := by
  obtain ⟨p, rs, rfl, hp, hrs⟩ := List.map_eq_cons_iff.1 hps
  have huse : p.kind = .keyword .useKw := by rw [hp, i.word.2]
  have hstop : q.kind = .semicolon := by rw [hq, i.stop.2]
  have hstep : s.step p (rs ++ [q] ++ vs) = { s with last := some p.kind } := by
    apply step_eq_of_plain hskip
    all_goals simp [huse, hallows]
  obtain ⟨k, hk⟩ := i.usePart.passes { s with last := some p.kind } rs ([q] ++ vs) hrs hskip hawaits
  rw [List.cons_append, past, hstep, past_append, hk]
  simp [past, step_of_stop _ _ hstop, hskip, hawaits]

-- ---------------------------------------------------------------------------
-- Plain tokens and namespaces
-- ---------------------------------------------------------------------------

/-- Plain tokens leave no trace. -/
theorem past_plain {s : ImportScan} {inCode : Bool} {before : Option Kind} {ps : List Placed}
    (vs : List Placed) (hps : isPlainAfter inCode before (ps.map Placed.toToken) = true)
    (hbefore : before = some .rParen → s.last = some .rParen) (hskip : s.skip = 0)
    (hawaits : s.awaitsBody = false) (hlevel : s.atImportLevel = !inCode) :
    ∃ k, s.past ps vs = { s with last := k } := by
  induction ps generalizing s before with
  | nil => exact ⟨s.last, rfl⟩
  | cons p ps ih =>
    simp only [List.map_cons, isPlainAfter, Bool.and_eq_true, Bool.or_eq_true,
      decide_eq_true_eq] at hps
    obtain ⟨⟨⟨⟨⟨⟨-, hopen⟩, hclose⟩, hstop⟩, hns⟩, huse⟩, hrest⟩ := hps
    have hstep : s.step p (ps ++ vs) = { s with last := some p.kind } := by
      refine step_eq_of_plain hskip hopen hclose hstop ?_ ?_
      · intro hkind
        have hnext := hns.resolve_left (not_not_intro hkind)
        cases ps with
        | nil => simp at hnext
        | cons q ps => simpa [hawaits] using hnext
      · intro hkind
        rcases huse with (hne | hcode) | hparen
        · exact absurd hkind hne
        · rw [allowsImport, hlevel, hcode]
          rfl
        · -- no statement begins after `)`
          rw [allowsImport, hbefore hparen]
          exact Bool.and_false _
    rw [past, hstep]
    exact ih (s := { s with last := some p.kind }) hrest id hskip hawaits hlevel

/-- A `namespace` with its path, which no separator follows, waits for its body. -/
theorem past_namespace {s : ImportScan} {word : TokenOf (.keyword .namespaceKw)}
    (path : Option NamePath) {ps : List Placed} {q : Placed} (vs : List Placed)
    (hps : ps.map Placed.toToken = word.1 :: (path.map NamePath.tokens).getD [])
    (hq : q.kind ≠ .nsSeparator) (hskip : s.skip = 0) :
    ∃ k, s.past ps (q :: vs) = { s with awaitsBody := true, last := k } := by
  obtain ⟨p, rs, rfl, hp, hrs⟩ := List.map_eq_cons_iff.1 hps
  have hns : p.kind = .keyword .namespaceKw := by rw [hp, word.2]
  have hnext : (rs ++ q :: vs).head?.any (·.kind ≠ .nsSeparator) = true := by
    cases path with
    | none =>
      rw [List.map_eq_nil_iff.1 hrs]
      simpa using hq
    | some path =>
      obtain ⟨r, rs, rfl, hr, -⟩ := List.map_eq_cons_iff.1 hrs
      have hkind : r.kind = .identifier := by rw [hr, path.head.2]
      simp [hkind]
  have hstep : s.step p (rs ++ q :: vs) = { s with awaitsBody := true, last := some p.kind } := by
    rw [← hnext]
    simp [step, hskip, hns]
  have hquiet : ∀ r ∈ rs, r.kind.isQuiet = true := by
    intro r hr
    have hmem : r.toToken ∈ (path.map NamePath.tokens).getD [] := hrs ▸ List.mem_map_of_mem hr
    cases path with
    | none => simp at hmem
    | some path => exact (Kind.unmarked_of_isClausePart (NamePath.isClausePart_of_mem hmem)).2
  rw [past, hstep]
  exact past_quiet (s := { s with awaitsBody := true, last := some p.kind }) _ hquiet hskip

-- ---------------------------------------------------------------------------
-- Elements
-- ---------------------------------------------------------------------------

/-- The scan stands where an element may begin. -/
structure AtStart (s : ImportScan) (inCode : Bool) : Prop where
  skip : s.skip = 0
  awaitsBody : s.awaitsBody = false
  last : s.last.all Kind.isStatementBoundary = true
  level : s.atImportLevel = !inCode

/-- From one state to another the scan of the tokens `ts` has read the given imports. -/
structure Reads (ts : List Placed) (imports : List (List Token × UseStmt)) (s s' : ImportScan) :
    Prop where
  braces : s'.braces = s.braces
  names : s'.names = s.names ++ imports.flatMap fun i => i.2.boundNames
  lastEnd_none : imports = [] → s'.lastEnd = s.lastEnd
  lastEnd_some : ∀ before i, imports.getLast? = some (before, i) →
    ∃ us q vs, ts = us ++ q :: vs ∧ us.map Placed.toToken = before ∧ q.toToken = i.stop.1 ∧
      s'.lastEnd = some q.index

theorem Reads.nothing {ts : List Placed} {s s' : ImportScan} (hbraces : s'.braces = s.braces)
    (hnames : s'.names = s.names) (hend : s'.lastEnd = s.lastEnd) : Reads ts [] s s' where
  braces := hbraces
  names := by rw [hnames, List.flatMap_nil, List.append_nil]
  lastEnd_none := fun _ => hend
  lastEnd_some := by
    intro before i hlast
    simp at hlast

theorem Reads.trans {ts : List Placed} {a b : List (List Token × UseStmt)}
    {s₁ s₂ s₃ : ImportScan} (h : Reads ts a s₁ s₂) (h' : Reads ts b s₂ s₃) :
    Reads ts (a ++ b) s₁ s₃ where
  braces := h'.braces.trans h.braces
  names := by rw [h'.names, h.names, List.flatMap_append, List.append_assoc]
  lastEnd_none := by
    intro hab
    obtain ⟨ha, hb⟩ := List.append_eq_nil_iff.1 hab
    rw [h'.lastEnd_none hb, h.lastEnd_none ha]
  lastEnd_some := by
    intro before i hlast
    rw [List.getLast?_append] at hlast
    rcases Option.or_eq_some_iff.1 hlast with hb | ⟨hb, ha⟩
    · exact h'.lastEnd_some before i hb
    · obtain ⟨us, q, vs, hts, hus, hq, hend⟩ := h.lastEnd_some before i ha
      refine ⟨us, q, vs, hts, hus, hq, ?_⟩
      rw [h'.lastEnd_none (List.getLast?_eq_none_iff.1 hb), hend]

/-- Over the tokens `ps`, with `vs` behind them, the scan goes from where an element may begin to
where the next one may begin, and reads the given imports. -/
def Scans (all ps vs : List Placed) (inCode : Bool) (imports : List (List Token × UseStmt))
    (s : ImportScan) : Prop :=
  (s.past ps vs).AtStart inCode ∧ Reads all imports s (s.past ps vs)

theorem Scans.append {all ps qs vs : List Placed} {inCode : Bool}
    {a b : List (List Token × UseStmt)} {s : ImportScan} (h : Scans all ps (qs ++ vs) inCode a s)
    (h' : Scans all qs vs inCode b (s.past ps (qs ++ vs))) :
    Scans all (ps ++ qs) vs inCode (a ++ b) s := by
  rw [Scans, past_append]
  exact ⟨h'.1, h.2.trans h'.2⟩

section Parts

variable {s : ImportScan} {inCode : Bool} (all : List Placed)

theorem scans_useStmt (h : s.AtStart inCode) {i : UseStmt} (bs : List Placed)
    {ps vs : List Placed} (hps : ps.map Placed.toToken = i.tokens) (hall : all = bs ++ (ps ++ vs)) :
    Scans all ps vs inCode
      (if inCode then [] else [(bs.map Placed.toToken ++ i.openTokens, i)]) s := by
  obtain ⟨rs, rest, rfl, hrs, hrest⟩ := List.map_eq_append_iff.1 hps
  obtain ⟨q, rfl, hq⟩ := List.map_eq_singleton_iff.1 hrest
  cases inCode with
  | true =>
    have hallows : s.allowsImport = false := by rw [allowsImport, h.level]; rfl
    rw [Scans, past_useStmt_of_not_allows vs hrs hq h.skip h.awaitsBody hallows]
    exact ⟨⟨h.skip, h.awaitsBody, rfl, h.level⟩, .nothing rfl rfl rfl⟩
  | false =>
    have hallows : s.allowsImport = true := by rw [allowsImport, h.level, h.last]; rfl
    rw [Scans, past_useStmt_of_allows vs hrs hq h.skip hallows]
    refine ⟨⟨h.skip, h.awaitsBody, rfl, h.level⟩, rfl, by simp, by simp, ?_⟩
    intro before i' hlast
    cases hlast
    exact ⟨bs ++ rs, q, vs, by simp [hall], by rw [List.map_append, hrs], hq, rfl⟩

/-- Any other statement is passed over. -/
theorem scans_stmt (h : s.AtStart inCode) {ps vs : List Placed} {q : Placed} {w : Bool}
    (hps : ∃ k, s.past ps (q :: vs) = { s with awaitsBody := w, last := k })
    (hq : q.kind = .semicolon) : Scans all (ps ++ [q]) vs inCode [] s := by
  obtain ⟨k, hk⟩ := hps
  have hpast : s.past (ps ++ [q]) vs = { s with awaitsBody := false, last := some .semicolon } := by
    rw [past_append, List.singleton_append, hk]
    simp [past, step_of_stop _ _ hq, h.skip]
  rw [Scans, hpast]
  exact ⟨⟨h.skip, rfl, rfl, h.level⟩, .nothing rfl rfl rfl⟩

theorem AtStart.past_plain (h : s.AtStart inCode) (plain : Plain inCode) {ps : List Placed}
    (hps : ps.map Placed.toToken = plain.1) (vs : List Placed) :
    ∃ k, s.past ps vs = { s with awaitsBody := false, last := k } := by
  have hplain : isPlainAfter inCode none (ps.map Placed.toToken) = true := hps ▸ plain.2
  obtain ⟨k, hk⟩ := ImportScan.past_plain vs hplain nofun h.skip h.awaitsBody h.level
  exact ⟨k, by rw [hk, ← h.awaitsBody]⟩

/-- The state behind the brace that opens a block; `isBody` says whether the block is the body
of a namespace. -/
def opened (s : ImportScan) (isBody : Bool) : ImportScan :=
  { s with
    braces := (if isBody then .namespaceBody else .code) :: s.braces
    awaitsBody := false
    last := some .lBrace }

/-- Of a block its body is read, and what was open before the block is open again behind it. -/
theorem scans_block (h : s.AtStart inCode) {qs ms vs : List Placed} {q r : Placed}
    {isBody inBlock : Bool} {imports : List (List Token × UseStmt)}
    (hhead : ∃ k, s.past qs (q :: (ms ++ r :: vs)) = { s with awaitsBody := isBody, last := k })
    (hq : q.kind = .lBrace) (hbody : Scans all ms (r :: vs) inBlock imports (s.opened isBody))
    (hr : r.kind = .rBrace) :
    Scans all (qs ++ [q] ++ (ms ++ [r])) vs inCode imports s := by
  obtain ⟨k, hk⟩ := hhead
  obtain ⟨hstart, hreads⟩ := hbody
  have hopened : s.past (qs ++ [q]) (ms ++ [r] ++ vs) = s.opened isBody := by
    rw [past_append, List.append_assoc, List.singleton_append, List.singleton_append, hk]
    simp [past, step_of_opener _ _ hq, h.skip, opened]
  have hbraces : ((s.opened isBody).past ms (r :: vs)).braces.tail = s.braces := by
    rw [hreads.braces]
    rfl
  have hclosed : s.past (qs ++ [q] ++ (ms ++ [r])) vs =
      { (s.opened isBody).past ms (r :: vs) with
        braces := s.braces
        last := some .rBrace } := by
    rw [past_append, hopened, past_append, List.singleton_append, past, past,
      step_of_closer _ hstart.skip hr, hbraces]
  rw [Scans, hclosed]
  exact ⟨⟨hstart.skip, hstart.awaitsBody, rfl, h.level⟩,
    rfl, hreads.names, hreads.lastEnd_none, hreads.lastEnd_some⟩

end Parts

/-- Elements are read one after another. -/
theorem scans_elements {inCode : Bool} (e : Elements inCode) {s : ImportScan} {all : List Placed}
    (h : s.AtStart inCode) (bs ps vs : List Placed) (hps : ps.map Placed.toToken = e.tokens)
    (hall : all = bs ++ (ps ++ vs)) :
    Scans all ps vs inCode (e.importsAfter (bs.map Placed.toToken)) s := by
  induction e generalizing s bs ps vs with
  | nil =>
    rw [List.map_eq_nil_iff.1 hps]
    exact ⟨h, .nothing rfl rfl rfl⟩
  | useStmt stmt rest ih =>
    obtain ⟨qs, rs, rfl, hqs, hrs⟩ := List.map_eq_append_iff.1 hps
    have hstmt := scans_useStmt all h bs hqs (by rw [hall, List.append_assoc])
    have hrest := ih hstmt.1 (bs ++ qs) rs vs hrs (by simp [hall])
    rw [List.map_append, hqs] at hrest
    exact hstmt.append hrest
  | namespaceDecl word path stop rest ih =>
    obtain ⟨qs, tail, rfl, hqs, htail⟩ := List.map_eq_append_iff.1 hps
    obtain ⟨q, rs, rfl, hq, hrs⟩ := List.map_eq_cons_iff.1 htail
    have hstop : q.kind = .semicolon := by rw [hq, stop.2]
    have hhead := past_namespace (some path) (rs ++ vs) hqs (by rw [hstop]; nofun) h.skip
    have hstmt := scans_stmt all h hhead hstop
    have hrest := ih hstmt.1 (bs ++ (qs ++ [q])) rs vs hrs (by simp [hall])
    rw [List.map_append, List.map_append, hqs, List.map_singleton, hq] at hrest
    rw [← List.singleton_append, ← List.append_assoc]
    exact hstmt.append hrest
  | @namespaceBlock inCode word path opened body closed rest ihBody ihRest =>
    obtain ⟨qs, tail, rfl, hqs, htail⟩ := List.map_eq_append_iff.1 hps
    obtain ⟨q, tail, rfl, hq, htail⟩ := List.map_eq_cons_iff.1 htail
    obtain ⟨ms, tail, rfl, hms, htail⟩ := List.map_eq_append_iff.1 htail
    obtain ⟨r, rs, rfl, hr, hrs⟩ := List.map_eq_cons_iff.1 htail
    have hopen : q.kind = .lBrace := by rw [hq, opened.2]
    have hhead := past_namespace path (ms ++ r :: (rs ++ vs)) hqs (by rw [hopen]; nofun) h.skip
    have hinside : (s.opened true).AtStart inCode := ⟨h.skip, rfl, rfl, h.level⟩
    have hbody := ihBody hinside (bs ++ (qs ++ [q])) ms (r :: (rs ++ vs)) hms (by simp [hall])
    have hblock := scans_block all h hhead hopen hbody (by rw [hr, closed.2])
    have hrest := ihRest hblock.1 (bs ++ (qs ++ [q]) ++ (ms ++ [r])) rs vs hrs (by simp [hall])
    have hsplit : qs ++ q :: (ms ++ r :: rs) = qs ++ [q] ++ (ms ++ [r]) ++ rs := by simp
    simp only [List.map_append, List.map_singleton, hqs, hq, hms, hr] at hblock hrest
    rw [hsplit]
    exact hblock.append hrest
  | plainStmt plain stop rest ih =>
    obtain ⟨qs, tail, rfl, hqs, htail⟩ := List.map_eq_append_iff.1 hps
    obtain ⟨q, rs, rfl, hq, hrs⟩ := List.map_eq_cons_iff.1 htail
    have hstmt := scans_stmt all h (h.past_plain plain hqs (q :: (rs ++ vs))) (by rw [hq, stop.2])
    have hrest := ih hstmt.1 (bs ++ (qs ++ [q])) rs vs hrs (by simp [hall])
    rw [List.map_append, List.map_append, hqs, List.map_singleton, hq] at hrest
    rw [← List.singleton_append, ← List.append_assoc]
    exact hstmt.append hrest
  | plainBlock header opened body closed rest ihBody ihRest =>
    obtain ⟨qs, tail, rfl, hqs, htail⟩ := List.map_eq_append_iff.1 hps
    obtain ⟨q, tail, rfl, hq, htail⟩ := List.map_eq_cons_iff.1 htail
    obtain ⟨ms, tail, rfl, hms, htail⟩ := List.map_eq_append_iff.1 htail
    obtain ⟨r, rs, rfl, hr, hrs⟩ := List.map_eq_cons_iff.1 htail
    have hinside : (s.opened false).AtStart true := ⟨h.skip, rfl, rfl, rfl⟩
    have hbody := ihBody hinside (bs ++ (qs ++ [q])) ms (r :: (rs ++ vs)) hms (by simp [hall])
    have hblock := scans_block all h (h.past_plain header hqs _) (by rw [hq, opened.2]) hbody
      (by rw [hr, closed.2])
    have hrest := ihRest hblock.1 (bs ++ (qs ++ [q]) ++ (ms ++ [r])) rs vs hrs (by simp [hall])
    have hsplit : qs ++ q :: (ms ++ r :: rs) = qs ++ [q] ++ (ms ++ [r]) ++ rs := by simp
    simp only [List.map_append, List.map_singleton, hqs, hq, hms, hr] at hblock hrest
    rw [hsplit]
    exact hblock.append hrest

end ImportScan

-- ---------------------------------------------------------------------------
-- Units
-- ---------------------------------------------------------------------------

/-- The scan of a well-formed unit finds the imports of the unit: it binds their names, and it
ends with the last of them. -/
theorem importScan_sourceUnit (u : SourceUnit) {ts : List Token} (h : meaningful ts = u.tokens) :
    importedNames ts = u.imports.flatMap (fun i => i.2.boundNames) ∧
      (u.imports = [] → (importScan ts).lastEnd = none) ∧
      ∀ before i, u.imports.getLast? = some (before, i) →
        ∃ pre post, ts = pre ++ i.stop.1 :: post ∧ meaningful pre = before ∧
          (importScan ts).lastEnd = some pre.length := by
  have hplaced : (placed ts).map Placed.toToken = u.tokens :=
    (map_toToken_placedFrom 0 ts).trans h
  obtain ⟨p, ps, hps, hp, hbody⟩ := List.map_eq_cons_iff.1 hplaced
  have htag : p.kind = .openTag := by rw [hp, u.tag.2]
  have hstep : ImportScan.step {} p ps = { last := some .openTag } := by
    simp [ImportScan.step, htag]
  have hscan : importScan ts = ImportScan.past { last := some .openTag } ps [] := by
    have hrun := ImportScan.run_append { last := some .openTag } ps []
    rw [List.append_nil] at hrun
    rw [importScan, hps, ImportScan.run, hstep, hrun]
    rfl
  have hstart : ImportScan.AtStart { last := some .openTag } false := ⟨rfl, rfl, rfl, rfl⟩
  have hall : placed ts = [p] ++ (ps ++ []) := by rw [hps, List.append_nil]; rfl
  obtain ⟨-, hreads⟩ := ImportScan.scans_elements u.body hstart [p] ps [] hbody hall
  rw [← hscan, List.map_singleton, hp] at hreads
  refine ⟨hreads.names, hreads.lastEnd_none, ?_⟩
  intro before i hlast
  obtain ⟨us, q, vs, hcut, hus, hq, hend⟩ := hreads.lastEnd_some before i hlast
  obtain ⟨pre, post, hts, hindex, hpre, -⟩ := exists_of_placedFrom_eq hcut
  refine ⟨pre, post, by rw [hts, hq], ?_, by rw [hend, hindex, Nat.zero_add]⟩
  rw [← hus, ← hpre, map_toToken_placedFrom]

/-- The unit `use A\{B, C as D,}; class X { use T; }`. -/
def groupUnit : SourceUnit :=
  let path (n : String) : NamePath := ⟨⟨⟨.identifier, n⟩, rfl⟩, []⟩
  let word : TokenOf (.keyword .useKw) := ⟨⟨.keyword .useKw, "use"⟩, rfl⟩
  let separator : TokenOf .nsSeparator := ⟨⟨.nsSeparator, "\\"⟩, rfl⟩
  let comma : TokenOf .comma := ⟨⟨.comma, ","⟩, rfl⟩
  let stop : TokenOf .semicolon := ⟨⟨.semicolon, ";"⟩, rfl⟩
  let opened : TokenOf .lBrace := ⟨⟨.lBrace, "\x7b"⟩, rfl⟩
  let closed : TokenOf .rBrace := ⟨⟨.rBrace, "\x7d"⟩, rfl⟩
  let newName : TokenOf (.keyword .asKw) × TokenOf .identifier :=
    (⟨⟨.keyword .asKw, "as"⟩, rfl⟩, ⟨⟨.identifier, "D"⟩, rfl⟩)
  let members : CommaList GroupMember :=
    ⟨⟨none, ⟨none, path "B", none⟩⟩, [(comma, ⟨none, ⟨none, path "C", some newName⟩⟩)]⟩
  let group : UseGroup := ⟨path "A", separator, opened, members, some comma, closed⟩
  let header : Plain false := ⟨[⟨.keyword .classKw, "class"⟩, ⟨.identifier, "X"⟩], rfl⟩
  { tag := ⟨⟨.openTag, "<?php"⟩, rfl⟩
    body :=
      .useStmt ⟨word, none, ⟨.group group, []⟩, stop⟩ <|
        .plainBlock header opened
          (.useStmt ⟨word, none, ⟨.clause ⟨none, path "T", none⟩, []⟩, stop⟩ .nil) closed .nil }

/-- With a space behind every token. -/
theorem importScan_sourceUnit_groupUnit :
    let ts := groupUnit.tokens.flatMap fun t => [t, ⟨.whitespace, " "⟩]
    meaningful ts = groupUnit.tokens ∧ importedNames ts = ["B", "D"] ∧
      ∃ pre post, ts = pre ++ ⟨.semicolon, ";"⟩ :: post ∧ (meaningful pre).length = 12 ∧
        (importScan ts).lastEnd = some pre.length := by
  intro ts
  have htokens : meaningful ts = groupUnit.tokens := rfl
  obtain ⟨hnames, -, hlast⟩ := importScan_sourceUnit groupUnit htokens
  obtain ⟨pre, post, hts, hpre, hend⟩ := hlast _ _ rfl
  exact ⟨htokens, hnames, pre, post, hts, congrArg List.length hpre, hend⟩

end PhpImports
