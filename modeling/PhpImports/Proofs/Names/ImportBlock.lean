import PhpImports.Proofs.Names.ImportRun
import PhpImports.Proofs.Names.Inert

/-!
# PhpImports — import statements in a run of the scan

A block of import statements that the scan meets where imports may stand is read
statement by statement: each binds the last identifier of its path, and the state
behind the block tells imports from other tokens just as the state before it did. The
same block in other code is passed over without a trace.

## Results

* `IsImport`, `ImportList` — import statements, and what they bind.
* `ImportScan.past_importList` — a block where imports may stand.
* `ImportScan.past_inert` — a block in other code.
-/

namespace PhpImports

-- ---------------------------------------------------------------------------
-- Statements
-- ---------------------------------------------------------------------------

/-- The last identifier of a path, or `last` if there is none. -/
def lastName (last : Option String) : List Token → Option String
  | [] => last
  | t :: ts => lastName (if t.kind = .identifier then some t.text else last) ts

theorem lastName_concat (last : Option String) (ts : List Token) (t : Token) :
    lastName last (ts ++ [t]) = if t.kind = .identifier then some t.text else lastName last ts := by
  induction ts generalizing last with
  | nil => rfl
  | cons u ts ih => rw [List.cons_append, lastName, ih, lastName]

theorem exists_of_lastName {last : Option String} {ts : List Token} {n : String}
    (h : lastName last ts = some n) :
    last = some n ∨ ∃ t ∈ ts, t.kind = .identifier ∧ t.text = n := by
  induction ts generalizing last with
  | nil => exact .inl h
  | cons t ts ih =>
    rcases ih h with hlast | ⟨u, hu, hkind, htext⟩
    · split at hlast
      · next hkind => exact .inr ⟨t, List.mem_cons_self, hkind, Option.some.inj hlast⟩
      · exact .inl hlast
    · exact .inr ⟨u, List.mem_cons_of_mem _ hu, hkind, htext⟩

/-- The tokens that separate the clauses of an import, and its end. -/
def Kind.isClauseMark (k : Kind) : Bool :=
  k = .semicolon || k = .comma || k = .lBrace || k = .rBrace

/-- The tokens of an import statement with a single path, which binds `name`. -/
def IsImport (ts : List Token) (name : Option String) : Prop :=
  ∃ body use path stop, ts = body ++ [stop] ∧ meaningful body = use :: path ∧
    use.kind = .keyword .useKw ∧ stop.kind = .semicolon ∧
    (∀ t ∈ path, t.kind.isClauseMark = false) ∧ lastName none path = name

/-- Import statements one after another, and what each of them binds. -/
inductive ImportList : List Token → List (Option String) → Prop
  | nil : ImportList [] []
  | cons {ts us : List Token} {name : Option String} {names : List (Option String)} :
      IsImport ts name → ImportList us names → ImportList (ts ++ us) (name :: names)

theorem IsImport.ne_nil {ts : List Token} {name : Option String} (h : IsImport ts name) :
    ts ≠ [] := by
  obtain ⟨body, use, path, stop, rfl, -⟩ := h
  simp

theorem ImportList.eq_nil {ts : List Token} {names : List (Option String)}
    (h : ImportList ts names) (hts : ts = []) : names = [] := by
  cases h with
  | nil => rfl
  | cons hhead htail => exact absurd (List.append_eq_nil_iff.1 hts).1 hhead.ne_nil

/-- Statements made from names, each in the same way. -/
theorem ImportList.flatMap {f : String → List Token} {g : String → Option String}
    (hf : ∀ n, IsImport (f n) (g n)) (names : List String) :
    ImportList (names.flatMap f) (names.map g) := by
  induction names with
  | nil => exact .nil
  | cons n names ih =>
    rw [List.flatMap_cons, List.map_cons]
    exact .cons (hf n) ih

theorem readClauses_cons_of_not_mark {last : Option String} {p : Placed} (ps : List Placed)
    (hp : p.kind.isClauseMark = false) :
    readClauses last (p :: ps) =
      readClauses (if p.kind = .identifier then some p.text else last) ps := by
  rw [readClauses]
  split <;> simp_all [Kind.isClauseMark]

/-- Tokens that are no marks only change the name that the clause is going to bind. -/
theorem readClauses_append_of_not_mark {last : Option String} {path : List Placed}
    (rest : List Placed) (hpath : ∀ p ∈ path, p.kind.isClauseMark = false) :
    readClauses last (path ++ rest) =
      readClauses (lastName last (path.map Placed.toToken)) rest := by
  induction path generalizing last with
  | nil => rfl
  | cons p path ih =>
    rw [List.cons_append, readClauses_cons_of_not_mark _ (hpath p List.mem_cons_self),
      List.map_cons, lastName]
    exact ih fun q hq => hpath q (List.mem_cons_of_mem _ hq)

theorem readClauses_path {last : Option String} {path : List Placed} {stop : Placed}
    (rest : List Placed) (hpath : ∀ p ∈ path, p.kind.isClauseMark = false)
    (hstop : stop.kind = .semicolon) :
    readClauses last (path ++ stop :: rest) =
      ⟨(lastName last (path.map Placed.toToken)).toList, some stop.index⟩ := by
  rw [readClauses_append_of_not_mark _ hpath]
  simp [readClauses, hstop]

theorem statementLength_append_stop {ts : List Placed} {stop : Placed} (rest : List Placed)
    (hts : ∀ p ∈ ts, p.kind ≠ .semicolon) (hstop : stop.kind = .semicolon) :
    statementLength (ts ++ stop :: rest) = ts.length + 1 := by
  have hne : ∀ p ∈ ts, decide (p.kind ≠ .semicolon) = true := fun p hp => decide_eq_true (hts p hp)
  rw [statementLength, List.takeWhile_append_of_pos hne,
    List.takeWhile_cons_of_neg (by simp [hstop])]
  simp

theorem statementLength_path {path : List Placed} {stop : Placed} (rest : List Placed)
    (hpath : ∀ p ∈ path, p.kind.isClauseMark = false) (hstop : stop.kind = .semicolon) :
    statementLength (path ++ stop :: rest) = path.length + 1 := by
  refine statementLength_append_stop rest (fun p hp hsemi => ?_) hstop
  have hmark := hpath p hp
  rw [hsemi] at hmark
  exact absurd hmark (by decide)

namespace ImportScan

-- ---------------------------------------------------------------------------
-- Where imports may stand
-- ---------------------------------------------------------------------------

/-- The tokens of a statement already read are passed over. -/
theorem past_skip {s : ImportScan} {us : List Placed} {t : Placed} (vs : List Placed)
    (hskip : s.skip = us.length + 1) :
    s.past (us ++ [t]) vs = { s with last := some t.kind, skip := 0 } := by
  have hstep : ∀ (s : ImportScan) (n : Nat) (p : Placed) (ts : List Placed), s.skip = n + 1 →
      s.step p ts = { s with last := some p.kind, skip := n } := by
    intro s n p ts h
    unfold step
    rw [h]
  induction us generalizing s with
  | nil =>
    rw [List.nil_append, past, past, hstep s 0 _ _ hskip]
  | cons u us ih =>
    rw [List.cons_append, past, hstep s (us.length + 1) _ _ hskip, ih rfl]

/-- A statement where an import may stand is read. -/
theorem past_isImport {s : ImportScan} {ts : List Token} {name : Option String}
    (h : IsImport ts name) (start : Nat) (vs : List Placed) (hskip : s.skip = 0)
    (hallows : s.allowsImport = true) :
    s.past (placedFrom start ts) vs =
      { s with
        names := s.names ++ name.toList
        lastEnd := some (start + ts.length - 1)
        last := some .semicolon } := by
  obtain ⟨body, use, path, stop, rfl, hbody, huse, hstop, hpath, hname⟩ := h
  have hmeaningful : stop.isMeaningful = true := by
    rw [Token.isMeaningful, hstop]
    rfl
  have hplaced : placedFrom start (body ++ [stop]) =
      placedFrom start body ++ [⟨stop, start + body.length⟩] := by
    rw [placedFrom_append, placedFrom, if_pos hmeaningful]
    rfl
  have htokens := map_toToken_placedFrom start body
  rw [hbody] at htokens
  cases hps : placedFrom start body with
  | nil => rw [hps] at htokens; simp at htokens
  | cons p ps =>
    rw [hps, List.map_cons, List.cons.injEq] at htokens
    obtain ⟨hp, hpsPath⟩ := htokens
    have hkind : p.kind = .keyword .useKw := by rw [← huse, ← hp]
    have hmarks : ∀ q ∈ ps, q.kind.isClauseMark = false := by
      intro q hq
      refine hpath q.toToken ?_
      rw [← hpsPath]
      exact List.mem_map_of_mem hq
    have hlast : start + (body ++ [stop]).length - 1 = start + body.length := by
      rw [List.length_append, List.length_singleton]
      omega
    -- the first token begins the import, and the scan passes over the others
    have hstep : s.step p (ps ++ ⟨stop, start + body.length⟩ :: vs) =
        { s with
          names := s.names ++ name.toList
          lastEnd := some (start + body.length)
          last := some p.kind
          skip := ps.length + 1 } := by
      let stop' : Placed := ⟨stop, start + body.length⟩
      have hread := @readClauses_path none ps stop' vs hmarks hstop
      rw [hpsPath, hname] at hread
      have hlen := @statementLength_path ps stop' vs hmarks hstop
      unfold step
      rw [hskip]
      simp only [hkind, hallows, if_true]
      rw [addImport, hread, hlen]
    rw [hplaced, hps, List.cons_append, past, List.append_assoc, List.singleton_append, hstep,
      past_skip _ rfl, hlast, hstop]
    simp [hskip]

/-- A block of statements where imports may stand is read, and imports may stand behind it. -/
theorem past_importList {s : ImportScan} {ts : List Token} {names : List (Option String)}
    (h : ImportList ts names) (start : Nat) (vs : List Placed) (hskip : s.skip = 0)
    (hallows : s.allowsImport = true) (hne : ts ≠ []) :
    s.past (placedFrom start ts) vs =
      { s with
        names := s.names ++ names.flatMap Option.toList
        lastEnd := some (start + ts.length - 1)
        last := some .semicolon } := by
  induction h generalizing s start with
  | nil => exact absurd rfl hne
  | @cons ts us name names hts hus ih =>
    have hallows' : allowsImport
        { s with
          names := s.names ++ name.toList
          lastEnd := some (start + ts.length - 1)
          last := some .semicolon } = true := by
      rw [allowsImport, Bool.and_eq_true] at hallows ⊢
      exact ⟨hallows.1, rfl⟩
    rw [placedFrom_append, past_append, past_isImport hts _ _ hskip hallows]
    by_cases hempty : us = []
    · rw [hus.eq_nil hempty, hempty]
      simp [placedFrom, past]
    · rw [ih (s := { s with
        names := s.names ++ name.toList
        lastEnd := some (start + ts.length - 1)
        last := some .semicolon }) (start + ts.length) hskip hallows' hempty]
      simp [List.append_assoc, Nat.add_assoc]

-- ---------------------------------------------------------------------------
-- In other code
-- ---------------------------------------------------------------------------

theorem step_inert {s : ImportScan} {p : Placed} (ts : List Placed)
    (hp : p.kind.isWord = true ∨ p.kind.isLink = true) (hskip : s.skip = 0)
    (hlevel : s.atImportLevel = false) :
    ∃ w, s.step p ts = { s with last := some p.kind, awaitsBody := w } := by
  have hallows : s.allowsImport = false := by rw [allowsImport, hlevel, Bool.false_and]
  unfold step
  rw [hskip]
  simp only [hallows]
  split
  · exact ⟨_, rfl⟩
  · exact ⟨_, rfl⟩
  · next h => rw [h] at hp; exact absurd hp (by decide)
  · next h => rw [h] at hp; exact absurd hp (by decide)
  · exact ⟨s.awaitsBody, rfl⟩
  · exact ⟨s.awaitsBody, rfl⟩

/-- Where no import may stand, a block of imports leaves no trace but its last `;`. -/
theorem past_inert {s : ImportScan} {b : List Token} (hb : Inert b) {ps : List Placed}
    (hps : ps.map Placed.toToken = b) (vs : List Placed) (hskip : s.skip = 0)
    (hlevel : s.atImportLevel = false) :
    s.past ps vs = { s with awaitsBody := false, last := some .semicolon } := by
  induction hb generalizing s ps with
  | @stop t ht =>
    obtain ⟨p, rfl, hp⟩ := List.map_eq_singleton_iff.1 hps
    have hkind : p.kind = .semicolon := by rw [← ht, ← hp]
    rw [past, past]
    unfold step
    rw [hskip, hkind]
  | @word t u ts ht hu _ ih =>
    obtain ⟨p, ps, rfl, hp, hrest⟩ := List.map_eq_cons_iff.1 hps
    have hkind : p.kind = t.kind := by rw [← hp]
    obtain ⟨w, hstep⟩ := step_inert (s := s) (p := p) (ps ++ vs) (.inl (by rw [hkind, ht]))
      hskip hlevel
    rw [past, hstep]
    exact ih (s := { s with last := some p.kind, awaitsBody := w }) hrest hskip hlevel
  | @link t ts ht _ ih =>
    obtain ⟨p, ps, rfl, hp, hrest⟩ := List.map_eq_cons_iff.1 hps
    have hkind : p.kind = t.kind := by rw [← hp]
    obtain ⟨w, hstep⟩ := step_inert (s := s) (p := p) (ps ++ vs) (.inr (by rw [hkind, ht]))
      hskip hlevel
    rw [past, hstep]
    exact ih (s := { s with last := some p.kind, awaitsBody := w }) hrest hskip hlevel

end ImportScan

end PhpImports
