import PhpImports.Proofs.Names.Anchor
import PhpImports.Proofs.Names.NamespaceBlock

/-!
# PhpImports — where the namespace declaration stands

The scan for the namespace takes the first `namespace` that is not the beginning of a
relative name, wherever it stands, and reads on through the next `;` or `{`. The scan for
imports counts braces on the way. In a unit without imports it passes over nothing, so the
braces that are open at the end of the declaration are those that were open at its
`namespace`, less those that the name closes, and the one that may end it.

## Results

* `Declares`, `exists_declares`  — a unit cut at its declaration.
* `scanThrough_append`           — the scan between two positions.
* `ImportScan.braces_past`       — the open braces behind tokens that open none.
* `Declares.braces_scanThrough`  — the open braces at the end of the declaration.
* `Declares.atImportLevel_iff`, `Declares.atImportLevel_iff_word` — whether imports may
  stand behind it.
-/

namespace PhpImports

-- ---------------------------------------------------------------------------
-- The declaration
-- ---------------------------------------------------------------------------

/-- A unit cut at the declaration of its namespace: the word `namespace`, the name, and the token
at the end. -/
structure Declares (ts : List Token) (ns : NamespaceDecl) (pre : List Token) (word : Token)
    (name : List Token) (stop : Token) (post : List Token) : Prop where
  cut : ts = pre ++ word :: (name ++ stop :: post)
  /-- Before it, `namespace` only begins relative names. -/
  first : declaresNamespace (meaningful pre) = false
  word_kind : word.kind = .keyword .namespaceKw
  /-- It does not begin a relative name itself. -/
  bare : (meaningful name).head?.any (·.kind = .nsSeparator) = false
  name_eq : ns.name = sourceText (meaningful name)
  name_kind : ∀ t ∈ name, ¬ (t.kind = .semicolon ∨ t.kind = .lBrace)
  stop_kind : stop.kind = .semicolon ∨ stop.kind = .lBrace
  stop_eq : ns.stop = pre.length + 1 + name.length

theorem exists_of_firstNamespace? {ts : List Placed} {ns : NamespaceDecl}
    (h : firstNamespace? ts = some ns) :
    ∃ us word vs, ts = us ++ word :: vs ∧ declaresNamespace (us.map Placed.toToken) = false ∧
      word.kind = .keyword .namespaceKw ∧ vs.head?.any (·.kind = .nsSeparator) = false ∧
      readNamespace? vs = some ns := by
  induction ts with
  | nil => simp [firstNamespace?] at h
  | cons t ts ih =>
    rw [firstNamespace?] at h
    split at h
    · next hword =>
      rw [Bool.and_eq_true, Bool.not_eq_true', decide_eq_true_eq] at hword
      exact ⟨[], t, ts, rfl, rfl, hword.1, hword.2, h⟩
    · next hnot =>
      obtain ⟨us, word, vs, rfl, hfirst, hkind, hbare, hread⟩ := ih h
      refine ⟨t :: us, word, vs, rfl, ?_, hkind, hbare, hread⟩
      rw [List.map_cons, declaresNamespace, hfirst, Bool.or_false, head?_map_toToken]
      cases us with
      | nil =>
        -- a `namespace` directly before this one would be no relative name
        have ht : t.kind ≠ .keyword .namespaceKw := by
          intro ht
          simp [ht, hkind] at hnot
        simp [ht]
      | cons u us => simpa using hnot

/-- A namespace is declared somewhere. -/
theorem exists_declares {ts : List Token} {ns : NamespaceDecl} (h : namespaceDecl? ts = some ns) :
    ∃ pre word name stop post, Declares ts ns pre word name stop post := by
  obtain ⟨us, word, vs, hplaced, hfirst, hword, hbare, hread⟩ := exists_of_firstNamespace? h
  obtain ⟨pre, rest, rfl, hindex, rfl, hrest⟩ := exists_of_placedFrom_eq hplaced
  obtain ⟨seen, stop, ws, rfl, hname, hstop, rfl⟩ := exists_of_readNamespace? hread
  obtain ⟨name, post, rfl, hindex', rfl, -⟩ := exists_of_placedFrom_eq hrest
  have hmeaningful := map_toToken_placedFrom (word.index + 1) name
  refine ⟨pre, word.toToken, name, stop.toToken, post, rfl, ?_, hword, ?_, ?_, ?_, ?_, ?_⟩
  · rwa [map_toToken_placedFrom] at hfirst
  · rw [← hmeaningful]
    cases hseen : placedFrom (word.index + 1) name with
    | nil => rfl
    | cons p ps =>
      rw [hseen] at hbare
      exact hbare
  · rw [hmeaningful]
  · intro t ht hmark
    obtain ⟨p, hp, rfl⟩ :=
      exists_mem_placedFrom (word.index + 1) ht (isMeaningful_of_mark hmark)
    have hends : p.endsDecl = true := by simpa [Placed.endsDecl] using hmark
    rw [hname p hp] at hends
    exact absurd hends (by simp)
  · simpa [Placed.endsDecl] using hstop
  · show stop.index = _
    rw [hindex', hindex]
    omega

-- ---------------------------------------------------------------------------
-- The scan between two positions
-- ---------------------------------------------------------------------------

/-- From one position to a later one. -/
theorem scanThrough_append {us : List Token} (vs ws : List Token) {i : Nat}
    (h : us.length = i + 1) :
    scanThrough (us ++ (vs ++ ws)) (i + vs.length) =
      (scanThrough (us ++ (vs ++ ws)) i).past (placedFrom (i + 1) vs)
        (placedFrom (i + 1 + vs.length) ws) := by
  have hlength : (us ++ vs).length = i + vs.length + 1 := by
    rw [List.length_append, h]
    omega
  have hplaced : placed (us ++ vs) = placed us ++ placedFrom (i + 1) vs := by
    rw [placed, placedFrom_append, Nat.zero_add, h]
    rfl
  have hstart : i + vs.length + 1 = i + 1 + vs.length := by omega
  rw [scanThrough_of_append h, ← List.append_assoc, scanThrough_of_append hlength, hplaced,
    ImportScan.past_append, hstart, placedFrom_append]

/-- In a unit without imports the scan passes over nothing. -/
theorem skip_past_of_lastEnd (us vs : List Token)
    (hnone : (importScan (us ++ vs)).lastEnd = none) :
    (ImportScan.past {} (placed us) (placedFrom us.length vs)).skip = 0 ∧
      ((ImportScan.past {} (placed us) (placedFrom us.length vs)).gain
        (placedFrom us.length vs)).stop = none := by
  have hplaced : placed (us ++ vs) = placed us ++ placedFrom us.length vs := by
    rw [placed, placedFrom_append, Nat.zero_add]
    rfl
  have hasc := pairwise_index_placedFrom 0 (us ++ vs)
  have hsound : (ImportScan.past {} (placed us) (placedFrom us.length vs)).Sound
      (placedFrom us.length vs) := by
    refine (ImportScan.Sound.initial _).past ?_
    rw [← hplaced]
    exact hasc
  rw [importScan, hplaced, ImportScan.run_append, ImportScan.lastEnd_run,
    Option.or_eq_none_iff] at hnone
  refine ⟨?_, hnone.1⟩
  by_contra hskip
  obtain ⟨-, p, -, -, hend⟩ := hsound.inside (Nat.pos_of_ne_zero hskip)
  rw [hnone.2] at hend
  exact absurd hend (by simp)

namespace ImportScan

theorem skip_step_of_gain {s : ImportScan} {t : Placed} {ts : List Placed} (hskip : s.skip = 0)
    (hnone : (s.gain (t :: ts)).stop = none) :
    (s.step t ts).skip = 0 ∧ ((s.step t ts).gain ts).stop = none := by
  rw [gain, Option.or_eq_none_iff] at hnone
  refine ⟨?_, hnone.1⟩
  rw [skip_step, if_pos hskip, hnone.2]
  rfl

section NoImport

variable {s : ImportScan} {us vs : List Placed}

/-- Where no import is found, tokens that open no brace only close some. -/
theorem braces_past (hskip : s.skip = 0) (hnone : (s.gain (us ++ vs)).stop = none)
    (hopen : ∀ p ∈ us, p.kind ≠ .lBrace) :
    (s.past us vs).braces = s.braces.drop (us.countP (·.kind = .rBrace)) ∧
      (s.past us vs).skip = 0 := by
  induction us generalizing s with
  | nil => exact ⟨rfl, hskip⟩
  | cons t us ih =>
    rw [List.forall_mem_cons] at hopen
    rw [List.cons_append] at hnone
    obtain ⟨hskip', hnone'⟩ := skip_step_of_gain hskip hnone
    obtain ⟨hbraces, hend⟩ := ih hskip' hnone' hopen.2
    refine ⟨?_, hend⟩
    rw [past, hbraces, braces_step, if_pos hskip, if_neg hopen.1, List.countP_cons]
    by_cases hclose : t.kind = .rBrace
    · simp [hclose, ← List.drop_one, Nat.add_comm]
    · simp [hclose]

/-- A namespace awaits its body over a name without another `namespace`. -/
theorem awaitsBody_past (hskip : s.skip = 0) (hnone : (s.gain (us ++ vs)).stop = none)
    (hkind : ∀ p ∈ us, p.kind ≠ .keyword .namespaceKw ∧
      ¬ (p.kind = .semicolon ∨ p.kind = .lBrace)) :
    (s.past us vs).awaitsBody = s.awaitsBody := by
  induction us generalizing s with
  | nil => rfl
  | cons t us ih =>
    rw [List.forall_mem_cons] at hkind
    rw [List.cons_append] at hnone
    obtain ⟨hskip', hnone'⟩ := skip_step_of_gain hskip hnone
    rw [past, ih hskip' hnone' hkind.2, awaitsBody_step, if_pos hskip, if_neg hkind.1.1,
      if_neg hkind.1.2]

end NoImport

end ImportScan

-- ---------------------------------------------------------------------------
-- The end of the declaration
-- ---------------------------------------------------------------------------

theorem countP_placedFrom (start : Nat) (ts : List Token) :
    (placedFrom start ts).countP (·.kind = .rBrace) = ts.countP (·.kind = .rBrace) := by
  induction ts generalizing start with
  | nil => rfl
  | cons t ts ih =>
    rw [placedFrom, List.countP_cons]
    split
    · rw [List.countP_cons, ih]
    · next ht =>
      have hkind : t.kind ≠ .rBrace := by
        intro hkind
        rw [Token.isMeaningful, hkind] at ht
        exact ht rfl
      simp [ih, hkind]

namespace Declares

variable {ts : List Token} {ns : NamespaceDecl} {pre : List Token} {word : Token}
  {name : List Token} {stop : Token} {post : List Token}

theorem cut_word (h : Declares ts ns pre word name stop post) :
    ts = (pre ++ [word]) ++ (name ++ ([stop] ++ post)) := by
  rw [h.cut]
  simp

/-- The state before the end of the declaration. -/
theorem scanThrough_name (h : Declares ts ns pre word name stop post) :
    scanThrough ts (ns.stop - 1) =
      (scanThrough ts pre.length).past (placedFrom (pre.length + 1) name)
        (placedFrom (pre.length + 1 + name.length) ([stop] ++ post)) := by
  have hword : (pre ++ [word]).length = pre.length + 1 := by simp
  have hstop : ns.stop - 1 = pre.length + name.length := by
    rw [h.stop_eq]
    omega
  rw [hstop, h.cut_word, scanThrough_append _ _ hword]

/-- The state behind it. -/
theorem scanThrough_stop (h : Declares ts ns pre word name stop post) :
    scanThrough ts ns.stop =
      (scanThrough ts (ns.stop - 1)).step ⟨stop, ns.stop⟩ (placedFrom (ns.stop + 1) post) := by
  have hstop : ns.stop = pre.length + name.length + 1 := by
    rw [h.stop_eq]
    omega
  have hname : ((pre ++ [word]) ++ name).length = pre.length + name.length + 1 := by
    rw [List.length_append, List.length_append, List.length_singleton]
    omega
  have hlast := scanThrough_append [stop] post hname
  rw [List.append_assoc, ← h.cut_word, placedFrom,
    if_pos (isMeaningful_of_mark h.stop_kind)] at hlast
  rw [hstop, Nat.add_sub_cancel]
  exact hlast

section WithoutImports

variable (h : Declares ts ns pre word name stop post) (hnone : (importScan ts).lastEnd = none)
include h hnone

theorem skip_scanThrough_word :
    (scanThrough ts pre.length).skip = 0 ∧
      ((scanThrough ts pre.length).gain (placedFrom (pre.length + 1) name ++
        placedFrom (pre.length + 1 + name.length) ([stop] ++ post))).stop = none := by
  have hword : (pre ++ [word]).length = pre.length + 1 := by simp
  have hpast := skip_past_of_lastEnd (pre ++ [word]) (name ++ ([stop] ++ post))
    (by rw [← h.cut_word]; exact hnone)
  rw [hword, ← scanThrough_of_append hword, ← h.cut_word, placedFrom_append] at hpast
  exact hpast

/-- The open braces at the end of the declaration. -/
theorem braces_scanThrough :
    (scanThrough ts ns.stop).braces =
      (if stop.kind = .lBrace then
        [if (scanThrough ts (ns.stop - 1)).awaitsBody then Brace.namespaceBody else .code]
        else []) ++
        (scanThrough ts pre.length).braces.drop (name.countP (·.kind = .rBrace)) := by
  obtain ⟨hskip, hgain⟩ := h.skip_scanThrough_word hnone
  have hopen : ∀ p ∈ placedFrom (pre.length + 1) name, p.kind ≠ .lBrace := by
    intro p hp hkind
    have hmem : p.toToken ∈ name := List.mem_of_getElem? (getElem?_of_mem_placedFrom hp).2
    exact h.name_kind _ hmem (.inr hkind)
  obtain ⟨hbraces, hskip'⟩ := ImportScan.braces_past hskip hgain hopen
  rw [← h.scanThrough_name] at hbraces hskip'
  rw [h.scanThrough_stop, ImportScan.braces_step, if_pos hskip', hbraces, countP_placedFrom]
  rcases h.stop_kind with hkind | hkind
  · simp [hkind]
  · simp [hkind]

/-- A declaration with one `namespace` only awaits a body at its end. -/
theorem awaitsBody_scanThrough (hname : ∀ t ∈ name, t.kind ≠ .keyword .namespaceKw) :
    (scanThrough ts (ns.stop - 1)).awaitsBody = true := by
  obtain ⟨hskip, hgain⟩ := h.skip_scanThrough_word hnone
  have hkinds : ∀ p ∈ placedFrom (pre.length + 1) name,
      p.kind ≠ .keyword .namespaceKw ∧ ¬ (p.kind = .semicolon ∨ p.kind = .lBrace) := by
    intro p hp
    have hmem : p.toToken ∈ name := List.mem_of_getElem? (getElem?_of_mem_placedFrom hp).2
    exact ⟨hname _ hmem, h.name_kind _ hmem⟩
  rw [h.scanThrough_name, ImportScan.awaitsBody_past hskip hgain hkinds]
  -- the scan comes to the `namespace` with nothing to pass over
  obtain ⟨hskip', -⟩ := skip_past_of_lastEnd pre (word :: (name ++ ([stop] ++ post)))
    (by rw [← List.singleton_append, ← List.append_assoc, ← h.cut_word]; exact hnone)
  have hseen : word.isMeaningful = true := by
    rw [Token.isMeaningful, h.word_kind]
    rfl
  have hstop := isMeaningful_of_mark h.stop_kind
  have hstate : scanThrough ts pre.length =
      (ImportScan.past {} (placed pre) (placedFrom pre.length
        (word :: (name ++ ([stop] ++ post))))).step ⟨word, pre.length⟩
        (placedFrom (pre.length + 1) (name ++ ([stop] ++ post))) := by
    have hplaced : placed (pre ++ [word]) = placed pre ++ [⟨word, pre.length⟩] := by
      rw [placed, placedFrom_cut 0 pre hseen, Nat.zero_add]
      rfl
    rw [h.cut_word, scanThrough_of_append (by simp), hplaced, ImportScan.past_append, placedFrom,
      if_pos hseen]
    rfl
  rw [hstate, ImportScan.awaitsBody_step, if_pos hskip', if_pos h.word_kind, placedFrom_append]
  have hbare := h.bare
  rw [← map_toToken_placedFrom (pre.length + 1)] at hbare
  cases hfirst : placedFrom (pre.length + 1) name with
  | nil =>
    rw [List.nil_append, List.singleton_append, placedFrom, if_pos hstop]
    rcases h.stop_kind with hkind | hkind <;> simp [hkind]
  | cons p ps =>
    rw [hfirst] at hbare
    simpa using hbare

/-- Whether imports may stand behind the declaration, in a unit without imports: every other brace
around its `namespace` is closed in the name, and a brace at the end is one that a namespace
awaits. -/
theorem atImportLevel_iff :
    (scanThrough ts ns.stop).atImportLevel = true ↔
      ((scanThrough ts pre.length).braces.drop (name.countP (·.kind = .rBrace))).all
          (· = .namespaceBody) = true ∧
        (stop.kind = .lBrace → (scanThrough ts (ns.stop - 1)).awaitsBody = true) := by
  rw [ImportScan.atImportLevel, h.braces_scanThrough hnone, List.all_append, Bool.and_eq_true]
  by_cases hkind : stop.kind = .lBrace
  · cases hawaits : (scanThrough ts (ns.stop - 1)).awaitsBody <;> simp [hkind]
  · simp [hkind]

/-- If the name closes no brace and holds no other `namespace`, imports may stand behind the
declaration exactly if they may stand at its `namespace`. -/
theorem atImportLevel_iff_word
    (hname : ∀ t ∈ name, t.kind ≠ .keyword .namespaceKw ∧ t.kind ≠ .rBrace) :
    (scanThrough ts ns.stop).atImportLevel = true ↔
      (scanThrough ts pre.length).atImportLevel = true := by
  have hcloses : name.countP (·.kind = .rBrace) = 0 := by
    rw [List.countP_eq_zero]
    intro t ht
    simpa using (hname t ht).2
  have hawaits := h.awaitsBody_scanThrough hnone fun t ht => (hname t ht).1
  rw [h.atImportLevel_iff hnone, hcloses, hawaits]
  simp [ImportScan.atImportLevel]

end WithoutImports

end Declares

end PhpImports
