import Mathlib.Data.List.Basic
import PhpImports.Proofs.Names.Place

/-!
# PhpImports — a run of the scan for imports

What the scan finds is told apart from what it remembers. A step finds one import at
most (`found`); a run finds the imports of its steps (`gain`), and adds them to what
was there before. What it remembers besides decides which `use` is an import, and of
the last token it only matters whether a statement may begin after it (`Alike`).

## Results

* `names_run`, `lastEnd_run` — a run adds what it finds.
* `gain_of_alike` — alike states find the same in the same tokens, wherever these stand.
* `past`, `run_append` — the state in the middle of a run.
* `Sound` — where the scan stands relative to the last import it has read.
* `past_congr` — tokens that come later do not matter as long as no import reaches them.
-/

namespace PhpImports

-- ---------------------------------------------------------------------------
-- One statement
-- ---------------------------------------------------------------------------

theorem mem_of_stop_readClauses {last : Option String} {ts : List Placed} {e : Nat}
    (h : (readClauses last ts).stop = some e) :
    ∃ p, ts[statementLength ts - 1]? = some p ∧ p.kind = .semicolon ∧ p.index = e := by
  induction ts generalizing last with
  | nil => simp [readClauses] at h
  | cons t ts ih =>
    by_cases ht : t.kind = .semicolon
    · refine ⟨t, ?_, ht, ?_⟩
      · simp [statementLength, ht]
      · simpa [readClauses, ht] using h
    · have hrest : ∃ last', (readClauses last' ts).stop = some e := by
        unfold readClauses at h
        split at h
        · exact ⟨_, h⟩
        · exact ⟨_, h⟩
        · exact ⟨_, h⟩
        · exact ⟨_, h⟩
        · contradiction
        · exact ⟨_, h⟩
      obtain ⟨last', h'⟩ := hrest
      obtain ⟨p, hp, hkind, hindex⟩ := ih h'
      refine ⟨p, ?_, hkind, hindex⟩
      simpa [statementLength, ht] using hp

/-- A statement has an end exactly if a `;` comes. -/
theorem stop_readClauses_eq_none_iff {last : Option String} {ts : List Placed} :
    (readClauses last ts).stop = none ↔ ∀ p ∈ ts, p.kind ≠ .semicolon := by
  induction ts generalizing last with
  | nil => simp [readClauses]
  | cons t ts ih =>
    unfold readClauses
    split <;> simp_all

/-- What comes after the end of a statement is not read. -/
theorem readClauses_append {last : Option String} {ts us : List Placed}
    (h : ∃ p ∈ ts, p.kind = .semicolon) :
    readClauses last (ts ++ us) = readClauses last ts := by
  induction ts generalizing last with
  | nil => simp at h
  | cons t ts ih =>
    by_cases ht : t.kind = .semicolon
    · simp [readClauses, ht]
    · have hts : ∃ p ∈ ts, p.kind = .semicolon := by simpa [ht] using h
      rw [List.cons_append, readClauses, readClauses]
      split <;> simp_all

theorem statementLength_append {ts us : List Placed} (h : ∃ p ∈ ts, p.kind = .semicolon) :
    statementLength (ts ++ us) = statementLength ts := by
  induction ts with
  | nil => simp at h
  | cons t ts ih =>
    by_cases ht : t.kind = .semicolon
    · simp [statementLength, ht]
    · have hts : ∃ p ∈ ts, p.kind = .semicolon := by simpa [ht] using h
      simpa [statementLength, ht] using ih hts

/-- What was read of a statement whose positions `g` moves. -/
def Clauses.move (g : Nat → Nat) (c : Clauses) : Clauses :=
  ⟨c.names, c.stop.map g⟩

section Recast

variable {g : Nat → Nat} {h : Placed → Placed} (hr : Placed.Recasts g h)

include hr

theorem readClauses_map (last : Option String) (ts : List Placed) :
    readClauses last (ts.map h) = (readClauses last ts).move g := by
  induction ts generalizing last with
  | nil => rfl
  | cons t ts ih =>
    rw [List.map_cons, readClauses, readClauses, hr.kind_eq]
    split
    · next hkind => rw [hr.text_eq t hkind, ih]
    · exact ih none
    · rw [ih, Clauses.move, Clauses.move]
    · rw [ih, Clauses.move, Clauses.move]
    · rw [hr.index_eq, Clauses.move, Option.map_some]
    · exact ih last

theorem statementLength_map (ts : List Placed) :
    statementLength (ts.map h) = statementLength ts := by
  have hsame : ((fun p : Placed => decide (p.kind ≠ .semicolon)) ∘ h) =
      fun p : Placed => decide (p.kind ≠ .semicolon) := by
    funext p
    rw [Function.comp_apply, hr.kind_eq]
  rw [statementLength, statementLength, List.takeWhile_map, List.length_map, hsame]

end Recast

namespace ImportScan

-- ---------------------------------------------------------------------------
-- One step, field by field
-- ---------------------------------------------------------------------------

/-- The import that the token `t` begins, with `ts` after it; nothing if it begins none. -/
def found (s : ImportScan) (t : Placed) (ts : List Placed) : Clauses :=
  if s.skip = 0 ∧ t.kind = .keyword .useKw ∧ s.allowsImport = true then readClauses none ts
  else ⟨[], none⟩

theorem last_step (s : ImportScan) (t : Placed) (ts : List Placed) :
    (s.step t ts).last = some t.kind := by
  unfold step addImport
  grind

theorem names_step (s : ImportScan) (t : Placed) (ts : List Placed) :
    (s.step t ts).names = s.names ++ (s.found t ts).names := by
  unfold step addImport found
  grind

theorem lastEnd_step (s : ImportScan) (t : Placed) (ts : List Placed) :
    (s.step t ts).lastEnd = (s.found t ts).stop.or s.lastEnd := by
  unfold step addImport found
  grind

theorem skip_step (s : ImportScan) (t : Placed) (ts : List Placed) :
    (s.step t ts).skip =
      if s.skip = 0 then (if (s.found t ts).stop.isSome then statementLength ts else 0)
      else s.skip - 1 := by
  unfold step addImport found
  grind

theorem braces_step (s : ImportScan) (t : Placed) (ts : List Placed) :
    (s.step t ts).braces =
      if s.skip = 0 then
        if t.kind = .lBrace then (if s.awaitsBody then .namespaceBody else .code) :: s.braces
        else if t.kind = .rBrace then s.braces.tail
        else s.braces
      else s.braces := by
  unfold step addImport
  grind

theorem awaitsBody_step (s : ImportScan) (t : Placed) (ts : List Placed) :
    (s.step t ts).awaitsBody =
      if s.skip = 0 then
        if t.kind = .keyword .namespaceKw then ts.head?.any (·.kind ≠ .nsSeparator)
        else if t.kind = .semicolon ∨ t.kind = .lBrace then false
        else s.awaitsBody
      else s.awaitsBody := by
  unfold step addImport
  grind

-- ---------------------------------------------------------------------------
-- A run
-- ---------------------------------------------------------------------------

/-- The imports that a run finds: the names they bind, and where the last one ends. -/
def gain (s : ImportScan) : List Placed → Clauses
  | [] => ⟨[], none⟩
  | t :: ts =>
    let here := s.found t ts
    let later := (s.step t ts).gain ts
    ⟨here.names ++ later.names, later.stop.or here.stop⟩

theorem names_run (s : ImportScan) (ts : List Placed) :
    (s.run ts).names = s.names ++ (s.gain ts).names := by
  induction ts generalizing s with
  | nil => simp [run, gain]
  | cons t ts ih => rw [run, ih, names_step, gain, List.append_assoc]

theorem lastEnd_run (s : ImportScan) (ts : List Placed) :
    (s.run ts).lastEnd = (s.gain ts).stop.or s.lastEnd := by
  induction ts generalizing s with
  | nil => simp [run, gain]
  | cons t ts ih => rw [run, ih, lastEnd_step, gain, Option.or_assoc]

theorem mem_of_stop_found {s : ImportScan} {t : Placed} {ts : List Placed} {e : Nat}
    (h : (s.found t ts).stop = some e) :
    ∃ p, ts[statementLength ts - 1]? = some p ∧ p.kind = .semicolon ∧ p.index = e := by
  unfold found at h
  split at h
  · exact mem_of_stop_readClauses h
  · simp at h

/-- The last import that a run finds ends with one of the `;` it has passed. -/
theorem mem_of_stop_gain {s : ImportScan} {ts : List Placed} {e : Nat}
    (h : (s.gain ts).stop = some e) : ∃ p ∈ ts, p.kind = .semicolon ∧ p.index = e := by
  induction ts generalizing s with
  | nil => simp [gain] at h
  | cons t ts ih =>
    rw [gain] at h
    rcases Option.or_eq_some_iff.1 h with h | ⟨-, h⟩
    · obtain ⟨p, hp, hend⟩ := ih h
      exact ⟨p, List.mem_cons_of_mem _ hp, hend⟩
    · obtain ⟨p, hp, hend⟩ := mem_of_stop_found h
      exact ⟨p, List.mem_cons_of_mem _ (List.mem_of_getElem? hp), hend⟩

/-- Every `use` among the tokens `us` has a `;` somewhere after it, with `vs` behind them. -/
def Ended : List Placed → List Placed → Prop
  | [], _ => True
  | t :: us, vs =>
    (t.kind = .keyword .useKw → ∃ p ∈ us ++ vs, p.kind = .semicolon) ∧ Ended us vs

/-- If every `use` is ended, names come from imports with an end only. -/
theorem names_gain_eq_nil {s : ImportScan} {ts : List Placed} (hended : Ended ts [])
    (h : (s.gain ts).stop = none) : (s.gain ts).names = [] := by
  induction ts generalizing s with
  | nil => rfl
  | cons t ts ih =>
    rw [gain, Option.or_eq_none_iff] at h
    obtain ⟨hlater, hhere⟩ := h
    have hnone : (s.found t ts).names = [] := by
      unfold found at hhere ⊢
      split
      · next himport =>
        rw [if_pos himport, stop_readClauses_eq_none_iff] at hhere
        obtain ⟨p, hp, hkind⟩ := hended.1 himport.2.1
        rw [List.append_nil] at hp
        exact absurd hkind (hhere p hp)
      · rfl
    rw [gain, hnone, List.nil_append]
    exact ih hended.2 hlater

-- ---------------------------------------------------------------------------
-- States that go on in the same way
-- ---------------------------------------------------------------------------

/-- Two states that tell imports from other tokens in the same way. -/
structure Alike (s s' : ImportScan) : Prop where
  braces : s'.braces = s.braces
  awaitsBody : s'.awaitsBody = s.awaitsBody
  skip : s'.skip = s.skip
  last : s'.last.all Kind.isStatementBoundary = s.last.all Kind.isStatementBoundary

theorem Alike.refl (s : ImportScan) : Alike s s :=
  ⟨rfl, rfl, rfl, rfl⟩

section Recast

variable {s s' : ImportScan} {g : Nat → Nat} {h : Placed → Placed}

theorem Alike.found (ha : Alike s s') (hr : Placed.Recasts g h) (t : Placed) (ts : List Placed) :
    s'.found (h t) (ts.map h) = (s.found t ts).move g := by
  have hallows : s'.allowsImport = s.allowsImport := by
    unfold allowsImport atImportLevel
    rw [ha.braces, ha.last]
  unfold ImportScan.found
  rw [hallows, ha.skip, hr.kind_eq]
  split
  · exact readClauses_map hr none ts
  · rfl

theorem Alike.step (ha : Alike s s') (hr : Placed.Recasts g h) (t : Placed) (ts : List Placed) :
    Alike (s.step t ts) (s'.step (h t) (ts.map h)) where
  braces := by rw [braces_step, braces_step, ha.skip, ha.awaitsBody, ha.braces, hr.kind_eq]
  awaitsBody := by
    have hhead : (ts.map h).head?.any (·.kind ≠ .nsSeparator)
        = ts.head?.any (·.kind ≠ .nsSeparator) := by
      cases ts with
      | nil => rfl
      | cons u ts => simp [hr.kind_eq]
    rw [awaitsBody_step, awaitsBody_step, ha.skip, ha.awaitsBody, hr.kind_eq, hhead]
  skip := by
    rw [skip_step, skip_step, ha.skip, ha.found hr, statementLength_map hr]
    simp [Clauses.move]
  last := by rw [last_step, last_step, hr.kind_eq]

/-- Alike states find the same imports in the same tokens, wherever these stand. -/
theorem gain_of_alike (ha : Alike s s') (hr : Placed.Recasts g h) (ts : List Placed) :
    s'.gain (ts.map h) = (s.gain ts).move g := by
  induction ts generalizing s s' with
  | nil => rfl
  | cons t ts ih =>
    rw [List.map_cons, gain, gain, ha.found hr, ih (ha.step hr t ts)]
    simp [Clauses.move, Option.map_or]

end Recast

-- ---------------------------------------------------------------------------
-- The state in the middle of a run
-- ---------------------------------------------------------------------------

/-- The state after the tokens `us`, with `vs` still to come. -/
def past (s : ImportScan) : List Placed → List Placed → ImportScan
  | [], _ => s
  | t :: us, vs => (s.step t (us ++ vs)).past us vs

theorem run_append (s : ImportScan) (us vs : List Placed) :
    s.run (us ++ vs) = (s.past us vs).run vs := by
  induction us generalizing s with
  | nil => rfl
  | cons t us ih => rw [List.cons_append, run, ih, past]

theorem past_append (s : ImportScan) (us vs ws : List Placed) :
    s.past (us ++ vs) ws = (s.past us (vs ++ ws)).past vs ws := by
  induction us generalizing s with
  | nil => rfl
  | cons t us ih => rw [List.cons_append, past, past, ih, List.append_assoc]

-- ---------------------------------------------------------------------------
-- Where the scan stands
-- ---------------------------------------------------------------------------

/-- The tokens stand in ascending places. -/
abbrev Ascending (ts : List Placed) : Prop :=
  ts.Pairwise (·.index < ·.index)

/-- What holds of the last import read, with the tokens `ts` still to come. -/
structure Sound (s : ImportScan) (ts : List Placed) : Prop where
  /-- It ends before every token that is not to be passed over. -/
  beyond : ∀ e ∈ s.lastEnd, ∀ p ∈ ts.drop s.skip, e < p.index
  /-- While there are tokens to be passed over, the last of them is its end. -/
  inside : 0 < s.skip → s.atImportLevel = true ∧
    ∃ p, ts[s.skip - 1]? = some p ∧ p.kind = .semicolon ∧ s.lastEnd = some p.index

theorem Sound.initial (ts : List Placed) : Sound {} ts :=
  ⟨nofun, nofun⟩

/-- A found import ends behind the token that begins it. -/
theorem lt_of_stop_found {s : ImportScan} {t : Placed} {ts : List Placed} {e : Nat}
    (hasc : Ascending (t :: ts)) (h : (s.found t ts).stop = some e) : t.index < e := by
  obtain ⟨p, hp, -, rfl⟩ := mem_of_stop_found h
  exact (List.pairwise_cons.1 hasc).1 p (List.mem_of_getElem? hp)

theorem found_eq_of_skip {s : ImportScan} {t : Placed} {ts : List Placed} (h : s.skip ≠ 0) :
    s.found t ts = ⟨[], none⟩ := by
  unfold found
  rw [if_neg fun himport => h himport.1]

/-- An import is found at import level only, and a `use` opens or closes no brace. -/
theorem atImportLevel_step_of_found {s : ImportScan} {t : Placed} {ts : List Placed} {e : Nat}
    (h : (s.found t ts).stop = some e) : s.skip = 0 ∧ (s.step t ts).atImportLevel = true := by
  unfold found at h
  split at h
  · next himport =>
    obtain ⟨hskip, hkind, hallows⟩ := himport
    refine ⟨hskip, ?_⟩
    have hbraces : (s.step t ts).braces = s.braces := by
      rw [braces_step, if_pos hskip, hkind]
      rfl
    rw [allowsImport, Bool.and_eq_true] at hallows
    rw [atImportLevel, hbraces]
    exact hallows.1
  · simp at h

theorem Sound.step {s : ImportScan} {t : Placed} {ts : List Placed} (h : Sound s (t :: ts))
    (hasc : Ascending (t :: ts)) : Sound (s.step t ts) ts := by
  have hasc' : Ascending ts := (List.pairwise_cons.1 hasc).2
  by_cases hskip : s.skip = 0
  · cases hfound : (s.found t ts).stop with
    | none =>
      -- no import begins here
      refine ⟨?_, ?_⟩
      · intro e he p hp
        rw [lastEnd_step, hfound, Option.none_or] at he
        have hp' : p ∈ ts := List.mem_of_mem_drop hp
        refine h.beyond e he p ?_
        rw [hskip]
        exact List.mem_cons_of_mem _ hp'
      · intro hpos
        rw [skip_step, if_pos hskip, hfound] at hpos
        simp at hpos
    | some e =>
      obtain ⟨p, hp, hkind, rfl⟩ := mem_of_stop_found hfound
      have hskip' : (s.step t ts).skip = statementLength ts := by
        rw [skip_step, if_pos hskip, hfound]
        rfl
      have hend : (s.step t ts).lastEnd = some p.index := by
        rw [lastEnd_step, hfound, Option.some_or]
      refine ⟨?_, ?_⟩
      · -- the end is the last token passed over, and places ascend
        intro e he q hq
        rw [hend] at he
        cases he
        rw [hskip'] at hq
        obtain ⟨j, hj⟩ := List.mem_iff_getElem?.1 hq
        rw [List.getElem?_drop] at hj
        obtain ⟨hpl, hpe⟩ := List.getElem?_eq_some_iff.1 hp
        obtain ⟨hql, hqe⟩ := List.getElem?_eq_some_iff.1 hj
        rw [← hpe, ← hqe]
        refine List.pairwise_iff_getElem.1 hasc' _ _ hpl hql ?_
        have : 0 < statementLength ts := Nat.succ_pos _
        omega
      · intro _
        refine ⟨(atImportLevel_step_of_found hfound).2, p, ?_, hkind, hend⟩
        rw [hskip']
        exact hp
  · -- one token less to be passed over
    obtain ⟨n, hn⟩ := Nat.exists_eq_succ_of_ne_zero hskip
    have hfound : s.found t ts = ⟨[], none⟩ := found_eq_of_skip hskip
    have hskip' : (s.step t ts).skip = n := by
      rw [skip_step, if_neg hskip, hn]
      rfl
    have hend : (s.step t ts).lastEnd = s.lastEnd := by
      rw [lastEnd_step, hfound]
      rfl
    refine ⟨?_, ?_⟩
    · intro e he p hp
      rw [hend] at he
      rw [hskip'] at hp
      refine h.beyond e he p ?_
      rw [hn]
      exact hp
    · intro hpos
      rw [hskip'] at hpos
      obtain ⟨hlevel, p, hp, hkind, hlast⟩ := h.inside (by omega)
      refine ⟨?_, p, ?_, hkind, by rw [hend, hlast]⟩
      · have hbraces : (s.step t ts).braces = s.braces := by rw [braces_step, if_neg hskip]
        rw [atImportLevel, hbraces]
        exact hlevel
      · rw [hskip']
        obtain ⟨m, rfl⟩ := Nat.exists_eq_succ_of_ne_zero (Nat.pos_iff_ne_zero.1 hpos)
        rw [hn] at hp
        exact hp

theorem Sound.past {s : ImportScan} {us vs : List Placed} (h : Sound s (us ++ vs))
    (hasc : Ascending (us ++ vs)) : Sound (s.past us vs) vs := by
  induction us generalizing s with
  | nil => exact h
  | cons t us ih => exact ih (h.step hasc) (List.pairwise_cons.1 hasc).2

/-- The end of the last import only moves forward. -/
theorem Sound.le_lastEnd_run {s : ImportScan} {ts : List Placed} (h : Sound s ts)
    (hasc : Ascending ts) {e : Nat} (he : s.lastEnd = some e) :
    ∃ e', (s.run ts).lastEnd = some e' ∧ e ≤ e' := by
  induction ts generalizing s e with
  | nil => exact ⟨e, he, Nat.le_refl _⟩
  | cons t ts ih =>
    have hstep : ∃ e₁, (s.step t ts).lastEnd = some e₁ ∧ e ≤ e₁ := by
      cases hfound : (s.found t ts).stop with
      | none => exact ⟨e, by rw [lastEnd_step, hfound, Option.none_or, he], Nat.le_refl _⟩
      | some e₁ =>
        refine ⟨e₁, by rw [lastEnd_step, hfound, Option.some_or], ?_⟩
        have hskip := (atImportLevel_step_of_found hfound).1
        have hlt : e < t.index := h.beyond e he t (by rw [hskip]; exact List.mem_cons_self)
        have := lt_of_stop_found hasc hfound
        omega
    obtain ⟨e₁, he₁, hle⟩ := hstep
    obtain ⟨e', he', hle'⟩ := ih (h.step hasc) (List.pairwise_cons.1 hasc).2 he₁
    exact ⟨e', he', Nat.le_trans hle hle'⟩

-- ---------------------------------------------------------------------------
-- Tokens that come later
-- ---------------------------------------------------------------------------

attribute [ext] ImportScan

/-- A step looks at the tokens to come for the import it may begin, and after `namespace` for
the next one. -/
theorem step_congr {s : ImportScan} {t : Placed} {ts ts' : List Placed}
    (hhead : t.kind = .keyword .namespaceKw → ts'.head? = ts.head?)
    (hfound : s.found t ts' = s.found t ts)
    (hlength : (s.found t ts).stop.isSome → statementLength ts' = statementLength ts) :
    s.step t ts' = s.step t ts := by
  ext1
  · rw [names_step, names_step, hfound]
  · rw [lastEnd_step, lastEnd_step, hfound]
  · rw [braces_step, braces_step]
  · rw [awaitsBody_step, awaitsBody_step]
    split
    · split
      · next hkind => rw [hhead hkind]
      · rfl
    · rfl
  · rw [last_step, last_step]
  · rw [skip_step, skip_step, hfound]
    split
    · split
      · next hsome => rw [hlength hsome]
      · rfl
    · rfl

/-- The tokens after `us` do not matter for the state there, if every `use` before is ended and
no import reaches beyond `us`. -/
theorem past_congr {s : ImportScan} {us vs : List Placed} (vs' : List Placed)
    (h : Sound s (us ++ vs)) (hasc : Ascending (us ++ vs)) (hended : Ended us vs)
    (hlast : ∀ p ∈ us.getLast?, p.kind ≠ .keyword .namespaceKw)
    (hend : ∀ e ∈ (s.run (us ++ vs)).lastEnd, ∀ p ∈ vs, e < p.index) :
    s.past us vs' = s.past us vs := by
  induction us generalizing s with
  | nil => rfl
  | cons t us ih =>
    have hstep : s.step t (us ++ vs') = s.step t (us ++ vs) := by
      -- an import that begins here has its end among `us`
      have hsemi : (s.found t (us ++ vs)).stop.isSome → ∃ p ∈ us, p.kind = .semicolon := by
        intro hsome
        obtain ⟨e, he⟩ := Option.isSome_iff_exists.1 hsome
        obtain ⟨p, hp, hkind, hindex⟩ := mem_of_stop_found he
        have hlastEnd : (s.step t (us ++ vs)).lastEnd = some e := by
          rw [lastEnd_step, he, Option.some_or]
        obtain ⟨e', he', hle⟩ :=
          (h.step hasc).le_lastEnd_run (List.pairwise_cons.1 hasc).2 hlastEnd
        rcases List.mem_append.1 (List.mem_of_getElem? hp) with hus | hvs
        · exact ⟨p, hus, hkind⟩
        · have := hend e' he' p hvs
          omega
      have hread : (s.found t (us ++ vs)).stop.isSome →
          readClauses none (us ++ vs') = readClauses none (us ++ vs) := by
        intro hsome
        rw [readClauses_append (hsemi hsome), readClauses_append (hsemi hsome)]
      apply step_congr
      · intro hkind
        cases us with
        | nil => exact absurd hkind (hlast t (by simp))
        | cons u us => rfl
      · by_cases himport :
            s.skip = 0 ∧ t.kind = .keyword .useKw ∧ s.allowsImport = true
        · have hsome : (s.found t (us ++ vs)).stop.isSome := by
            obtain ⟨p, hp, hkind⟩ := hended.1 himport.2.1
            rw [found, if_pos himport, Option.isSome_iff_ne_none]
            intro hnone
            exact stop_readClauses_eq_none_iff.1 hnone p hp hkind
          rw [found, found, if_pos himport, if_pos himport, hread hsome]
        · rw [found, found, if_neg himport, if_neg himport]
      · intro hsome
        rw [statementLength_append (hsemi hsome), statementLength_append (hsemi hsome)]
    rw [past, past, hstep]
    exact ih (h.step hasc) (List.pairwise_cons.1 hasc).2 hended.2
      (fun p hp => hlast p (List.mem_getLast?_cons hp)) hend

end ImportScan

-- ---------------------------------------------------------------------------
-- The scan of a unit
-- ---------------------------------------------------------------------------

/-- The token at the end of the last import. -/
theorem getElem?_lastEnd {ts : List Token} {e : Nat} (h : (importScan ts).lastEnd = some e) :
    ∃ t, ts[e]? = some t ∧ t.kind = .semicolon := by
  rw [importScan, ImportScan.lastEnd_run, Option.or_none] at h
  obtain ⟨p, hp, hkind, rfl⟩ := ImportScan.mem_of_stop_gain h
  exact ⟨p.toToken, getElem?_of_mem_placed hp, hkind⟩

end PhpImports
