import PhpImports.Proofs.Names.ImportBlock

/-!
# PhpImports — the scan for imports around the anchor

New imports are put behind the last import of a unit, or behind its namespace
declaration if it has none. In either case the scan has read all imports of the unit
when it leaves that token, and no statement is left for it to pass over. So the scan of
the extended unit comes to the new imports in the same state, and from there on it
finds nothing but them.

## Results

* `UsesEnded`, `UsesEndedBefore`, `scanThrough` — the notions used.
* `AnchorAt` — a unit cut at its anchor, and what holds of the scan there.
* `AnchorAt.importScan_imports` — imports put in where imports may stand.
* `AnchorAt.importedNames_inert` — imports put into other code.
-/

namespace PhpImports

/-- Every `use` of a unit has a `;` at some later position. -/
def UsesEnded (ts : List Token) : Prop :=
  ∀ i : Fin ts.length, ts[i].kind = .keyword .useKw →
    ∃ j : Fin ts.length, i < j ∧ ts[j].kind = .semicolon

instance (ts : List Token) : Decidable (UsesEnded ts) :=
  inferInstanceAs (Decidable (∀ i : Fin ts.length, ts[i].kind = .keyword .useKw →
    ∃ j : Fin ts.length, i < j ∧ ts[j].kind = .semicolon))

/-- The scan for imports right after the token at position `i`. -/
def scanThrough (ts : List Token) (i : Nat) : ImportScan :=
  ImportScan.past {} (placed (ts.take (i + 1))) (placedFrom (i + 1) (ts.drop (i + 1)))

theorem scanThrough_of_append {us vs : List Token} {i : Nat} (h : us.length = i + 1) :
    scanThrough (us ++ vs) i = ImportScan.past {} (placed us) (placedFrom (i + 1) vs) := by
  rw [scanThrough, List.take_left' h, List.drop_left' h]

theorem exists_mem_placedFrom {ts : List Token} {t : Token} (start : Nat) (ht : t ∈ ts)
    (hmeaningful : t.isMeaningful = true) : ∃ p ∈ placedFrom start ts, p.toToken = t := by
  have hmem : t ∈ meaningful ts := List.mem_filter.2 ⟨ht, hmeaningful⟩
  rw [← map_toToken_placedFrom start] at hmem
  exact List.mem_map.1 hmem

/-- Every `use` before position `k` has a `;` at some later position. -/
def UsesEndedBefore (k : Nat) (ts : List Token) : Prop :=
  ∀ i : Fin ts.length, i.val < k → ts[i].kind = .keyword .useKw →
    ∃ j : Fin ts.length, i < j ∧ ts[j].kind = .semicolon

instance (k : Nat) (ts : List Token) : Decidable (UsesEndedBefore k ts) :=
  inferInstanceAs (Decidable (∀ i : Fin ts.length, i.val < k → ts[i].kind = .keyword .useKw →
    ∃ j : Fin ts.length, i < j ∧ ts[j].kind = .semicolon))

theorem UsesEnded.before {ts : List Token} (h : UsesEnded ts) (k : Nat) : UsesEndedBefore k ts :=
  fun i _ => h i

/-- What comes before a `;` is ended. -/
theorem usesEndedBefore_of_semicolon {pre : List Token} {t : Token} (post : List Token)
    (ht : t.kind = .semicolon) : UsesEndedBefore pre.length (pre ++ t :: post) := by
  intro i hi _
  refine ⟨⟨pre.length, by simp⟩, hi, ?_⟩
  simpa using ht

theorem UsesEndedBefore.ended {us vs : List Token} (h : UsesEndedBefore us.length (us ++ vs))
    (start : Nat) :
    ImportScan.Ended (placedFrom start us) (placedFrom (start + us.length) vs) := by
  induction us generalizing start with
  | nil => trivial
  | cons t us ih =>
    -- the `;` that ends a `use` is never the first token
    have hafter : ∀ i : Fin (t :: us ++ vs).length, i.val < (t :: us).length →
        (t :: us ++ vs)[i].kind = .keyword .useKw →
        ∃ j : Fin (us ++ vs).length, i.val < j.val + 1 ∧ (us ++ vs)[j].kind = .semicolon := by
      intro i hlt hi
      obtain ⟨⟨j, hj⟩, hij, hsemi⟩ := h i hlt hi
      have hlt' : i.val < j := hij
      obtain ⟨k, rfl⟩ := Nat.exists_eq_succ_of_ne_zero (show j ≠ 0 by omega)
      exact ⟨⟨k, Nat.lt_of_succ_lt_succ hj⟩, hlt', hsemi⟩
    have htail : UsesEndedBefore us.length (us ++ vs) := by
      intro i hlt hi
      obtain ⟨j, hij, hsemi⟩ := hafter i.succ (Nat.succ_lt_succ hlt) hi
      exact ⟨j, Nat.lt_of_succ_lt_succ hij, hsemi⟩
    have hstart : start + (t :: us).length = start + 1 + us.length := by
      rw [List.length_cons]
      omega
    have hrest := ih htail (start + 1)
    rw [hstart, placedFrom]
    split
    · refine ⟨?_, hrest⟩
      intro hkind
      obtain ⟨j, -, hsemi⟩ := hafter ⟨0, by simp⟩ (by simp) hkind
      have hmem : (us ++ vs)[j] ∈ us ++ vs := List.getElem_mem j.isLt
      obtain ⟨p, hp, htoken⟩ := exists_mem_placedFrom (start + 1) hmem
        (by rw [Token.isMeaningful, hsemi]; rfl)
      rw [← htoken] at hsemi
      rw [placedFrom_append] at hp
      exact ⟨p, hp, hsemi⟩
    · exact hrest

theorem UsesEnded.ended {ts : List Token} (h : UsesEnded ts) (start : Nat) :
    ImportScan.Ended (placedFrom start ts) [] := by
  have hall : UsesEndedBefore ts.length (ts ++ []) := by
    rw [List.append_nil]
    exact h.before _
  exact hall.ended start

theorem UsesEnded.of_append {us vs : List Token} (h : UsesEnded (us ++ vs)) : UsesEnded vs := by
  intro i hi
  obtain ⟨⟨j, hj⟩, hij, hsemi⟩ := h ⟨us.length + i.val, by simp⟩ (by simpa using hi)
  have hlt : us.length + i.val < j := hij
  obtain ⟨k, rfl⟩ : ∃ k, j = us.length + k := ⟨j - us.length, by omega⟩
  refine ⟨⟨k, by simpa using hj⟩, by show i.val < k; omega, by simpa using hsemi⟩

/-- A unit cut at the token `t` behind which its new imports are put. -/
structure AnchorAt (pre : List Token) (t : Token) (post : List Token) : Prop where
  kind : t.kind = .semicolon ∨ t.kind = .lBrace
  ended : UsesEndedBefore pre.length (pre ++ t :: post)
  /-- If the unit has imports, the last one ends here. -/
  lastEnd : ∀ e ∈ (importScan (pre ++ t :: post)).lastEnd, e = pre.length

namespace AnchorAt

variable {pre post : List Token} {t : Token}

-- ---------------------------------------------------------------------------
-- The scan at the anchor
-- ---------------------------------------------------------------------------

theorem placed_cut (h : AnchorAt pre t post) (start : Nat) (ts : List Token) :
    placedFrom start (pre ++ t :: ts) =
      placedFrom start pre ++ ⟨t, start + pre.length⟩ ::
        placedFrom (start + pre.length + 1) ts :=
  placedFrom_cut start pre (isMeaningful_of_mark h.kind) ts

theorem placed_through (h : AnchorAt pre t post) :
    placed (pre ++ [t]) = placed pre ++ [⟨t, pre.length⟩] := by
  rw [placed, placed, h.placed_cut, placedFrom, Nat.zero_add]

/-- The anchor is no `use`, so that every `use` through it is ended too. -/
theorem ended_through (h : AnchorAt pre t post) :
    ImportScan.Ended (placed pre ++ [⟨t, pre.length⟩]) (placedFrom (pre.length + 1) post) := by
  have hthrough : UsesEndedBefore (pre ++ [t]).length ((pre ++ [t]) ++ post) := by
    rw [← List.append_cons, List.length_append, List.length_singleton]
    intro i hi hkind
    by_cases hlt : i.val < pre.length
    · exact h.ended i hlt hkind
    · obtain ⟨i, hlt'⟩ := i
      obtain rfl : i = pre.length := by
        dsimp only at hi hlt
        omega
      rcases h.kind with ht | ht <;> simp [ht] at hkind
  have hended := hthrough.ended 0
  rw [List.length_append, List.length_singleton, Nat.zero_add] at hended
  rw [← h.placed_through]
  exact hended

theorem scanThrough_eq (h : AnchorAt pre t post) :
    scanThrough (pre ++ t :: post) pre.length =
      ImportScan.past {} (placed pre ++ [⟨t, pre.length⟩]) (placedFrom (pre.length + 1) post) := by
  rw [List.append_cons, scanThrough_of_append (by simp), h.placed_through]

/-- The state before the anchor, with the anchor and `post` still to come. -/
theorem scanThrough_eq_step (h : AnchorAt pre t post) :
    ∃ s : ImportScan,
      s.Sound (⟨t, pre.length⟩ :: placedFrom (pre.length + 1) post) ∧
      scanThrough (pre ++ t :: post) pre.length =
        s.step ⟨t, pre.length⟩ (placedFrom (pre.length + 1) post) := by
  have hcut := h.placed_cut 0 post
  rw [Nat.zero_add] at hcut
  have hasc := pairwise_index_placedFrom 0 (pre ++ t :: post)
  rw [hcut] at hasc
  refine ⟨_, (ImportScan.Sound.initial _).past hasc, ?_⟩
  rw [h.scanThrough_eq, ImportScan.past_append]
  rfl

theorem sound_scanThrough (h : AnchorAt pre t post) :
    (scanThrough (pre ++ t :: post) pre.length).Sound (placedFrom (pre.length + 1) post) := by
  obtain ⟨s, hsound, heq⟩ := h.scanThrough_eq_step
  rw [heq]
  refine hsound.step ?_
  have hasc := pairwise_index_placedFrom 0 (pre ++ t :: post)
  rw [h.placed_cut, Nat.zero_add] at hasc
  exact (List.pairwise_append.1 hasc).2.1

theorem importScan_eq_run (h : AnchorAt pre t post) :
    importScan (pre ++ t :: post) =
      (scanThrough (pre ++ t :: post) pre.length).run (placedFrom (pre.length + 1) post) := by
  rw [h.scanThrough_eq, ← ImportScan.run_append, importScan, placed, h.placed_cut, Nat.zero_add,
    List.append_assoc]
  rfl

/-- Behind the anchor the scan finds no import that is ended. -/
theorem stop_gain (h : AnchorAt pre t post) :
    ((scanThrough (pre ++ t :: post) pre.length).gain (placedFrom (pre.length + 1) post)).stop =
      none := by
  cases hgain : ((scanThrough (pre ++ t :: post) pre.length).gain
      (placedFrom (pre.length + 1) post)).stop with
  | none => rfl
  | some e =>
    -- its end would be the end of the last import, and stand behind the anchor
    have hend : (importScan (pre ++ t :: post)).lastEnd = some e := by
      rw [h.importScan_eq_run, ImportScan.lastEnd_run, hgain, Option.some_or]
    obtain ⟨p, hp, -, rfl⟩ := ImportScan.mem_of_stop_gain hgain
    have hle := (index_of_mem_placedFrom hp).1
    have := h.lastEnd _ hend
    omega

/-- The names that imports without an end bind behind the anchor. -/
def lateNames (pre : List Token) (t : Token) (post : List Token) : List String :=
  ((scanThrough (pre ++ t :: post) pre.length).gain (placedFrom (pre.length + 1) post)).names

theorem lateNames_eq_nil (h : AnchorAt pre t post) (hended : UsesEnded (pre ++ t :: post)) :
    lateNames pre t post = [] := by
  have hpost : UsesEnded post := by
    rw [List.append_cons] at hended
    exact hended.of_append
  exact ImportScan.names_gain_eq_nil (hpost.ended _) h.stop_gain

theorem importedNames_eq (h : AnchorAt pre t post) :
    importedNames (pre ++ t :: post) =
      (scanThrough (pre ++ t :: post) pre.length).names ++ lateNames pre t post := by
  rw [importedNames, h.importScan_eq_run, ImportScan.names_run]
  rfl

theorem lastEnd_scanThrough (h : AnchorAt pre t post) :
    (scanThrough (pre ++ t :: post) pre.length).lastEnd =
      (importScan (pre ++ t :: post)).lastEnd := by
  rw [h.importScan_eq_run, ImportScan.lastEnd_run, h.stop_gain, Option.none_or]

theorem skip_scanThrough (h : AnchorAt pre t post) :
    (scanThrough (pre ++ t :: post) pre.length).skip = 0 := by
  by_cases hskip : (scanThrough (pre ++ t :: post) pre.length).skip = 0
  · exact hskip
  · -- the statement to be passed over would end behind the anchor
    obtain ⟨-, p, hp, -, hend⟩ := h.sound_scanThrough.inside (Nat.pos_of_ne_zero hskip)
    have hle := (index_of_mem_placedFrom (List.mem_of_getElem? hp)).1
    rw [h.lastEnd_scanThrough] at hend
    have := h.lastEnd _ hend
    omega

theorem last_scanThrough (h : AnchorAt pre t post) :
    (scanThrough (pre ++ t :: post) pre.length).last = some t.kind := by
  obtain ⟨s, -, heq⟩ := h.scanThrough_eq_step
  rw [heq, ImportScan.last_step]

/-- A statement may begin behind the anchor. -/
theorem isStatementBoundary_last (h : AnchorAt pre t post) :
    (scanThrough (pre ++ t :: post) pre.length).last.all Kind.isStatementBoundary = true := by
  rw [h.last_scanThrough, Option.all_some]
  rcases h.kind with ht | ht
  · rw [ht]
    rfl
  · rw [ht]
    rfl

/-- Behind the last import further imports may stand; behind any other anchor no namespace
awaits its body. -/
theorem atImportLevel_or_awaitsBody (h : AnchorAt pre t post) :
    (scanThrough (pre ++ t :: post) pre.length).atImportLevel = true ∨
      (importScan (pre ++ t :: post)).lastEnd = none ∧
      (scanThrough (pre ++ t :: post) pre.length).awaitsBody = false := by
  obtain ⟨s, hsound, heq⟩ := h.scanThrough_eq_step
  have hlast := h.lastEnd_scanThrough
  rw [heq] at hlast ⊢
  by_cases hskip : s.skip = 0
  · right
    have hfound : s.found ⟨t, pre.length⟩ (placedFrom (pre.length + 1) post) = ⟨[], none⟩ := by
      rw [ImportScan.found, if_neg]
      rintro ⟨-, hkind, -⟩
      rcases h.kind with ht | ht <;> simp [ht] at hkind
    constructor
    · -- an import that has ended already ends before the anchor
      rw [ImportScan.lastEnd_step, hfound, Option.none_or] at hlast
      cases hend : (importScan (pre ++ t :: post)).lastEnd with
      | none => rfl
      | some e =>
        have hlt := hsound.beyond e (by rw [hlast, hend]; rfl) ⟨t, pre.length⟩
          (by rw [hskip]; exact List.mem_cons_self)
        have heqe := h.lastEnd e hend
        exact absurd hlt (by rw [heqe]; exact Nat.lt_irrefl _)
    · rw [ImportScan.awaitsBody_step, if_pos hskip]
      rcases h.kind with ht | ht <;> simp [ht]
  · left
    obtain ⟨hlevel, -⟩ := hsound.inside (Nat.pos_of_ne_zero hskip)
    rw [ImportScan.atImportLevel, ImportScan.braces_step, if_neg hskip]
    exact hlevel

theorem atImportLevel_of_lastEnd (h : AnchorAt pre t post)
    (hsome : (importScan (pre ++ t :: post)).lastEnd.isSome = true) :
    (scanThrough (pre ++ t :: post) pre.length).atImportLevel = true := by
  refine h.atImportLevel_or_awaitsBody.resolve_right ?_
  rintro ⟨hnone, -⟩
  rw [hnone] at hsome
  simp at hsome

-- ---------------------------------------------------------------------------
-- The scan of the extended unit
-- ---------------------------------------------------------------------------

/-- The scan comes to a block behind the anchor in the state in which it leaves the anchor. -/
theorem importScan_insert (h : AnchorAt pre t post) (block : List Token) :
    importScan (pre ++ t :: (block ++ post)) =
      ((scanThrough (pre ++ t :: post) pre.length).past (placedFrom (pre.length + 1) block)
          ((placedFrom (pre.length + 1) post).map (Placed.shift block.length))).run
        ((placedFrom (pre.length + 1) post).map (Placed.shift block.length)) := by
  have hcut : placedFrom 0 (pre ++ t :: post) =
      (placed pre ++ [⟨t, pre.length⟩]) ++ placedFrom (pre.length + 1) post := by
    rw [h.placed_cut, Nat.zero_add, List.append_assoc]
    rfl
  have hasc := pairwise_index_placedFrom 0 (pre ++ t :: post)
  rw [hcut] at hasc
  have hended := h.ended_through
  rw [h.scanThrough_eq, ← ImportScan.past_congr _ (ImportScan.Sound.initial _) hasc hended,
    ← ImportScan.past_append, ← ImportScan.run_append]
  · rw [importScan, placed, h.placed_cut, placedFrom_append, Nat.zero_add,
      placedFrom_add (pre.length + 1) block.length]
    simp only [List.append_assoc, List.cons_append, List.nil_append]
    rfl
  · intro p hp
    rw [List.getLast?_concat] at hp
    cases hp
    rcases h.kind with ht | ht <;> simp [ht]
  · intro e he p hp
    have hend : (importScan (pre ++ t :: post)).lastEnd = some e := by
      rw [importScan, placed, hcut]
      exact he
    have := h.lastEnd e hend
    have := (index_of_mem_placedFrom hp).1
    omega

/-- A block that leaves the scan in a state alike changes nothing behind it. -/
theorem importScan_alike (h : AnchorAt pre t post) {block : List Token} {s : ImportScan}
    (hpast : (scanThrough (pre ++ t :: post) pre.length).past (placedFrom (pre.length + 1) block)
      ((placedFrom (pre.length + 1) post).map (Placed.shift block.length)) = s)
    (halike : (scanThrough (pre ++ t :: post) pre.length).Alike s) :
    importedNames (pre ++ t :: (block ++ post)) = s.names ++ lateNames pre t post ∧
      (importScan (pre ++ t :: (block ++ post))).lastEnd = s.lastEnd := by
  have hgain := ImportScan.gain_of_alike halike (Placed.recasts_shift block.length)
    (placedFrom (pre.length + 1) post)
  constructor
  · rw [importedNames, h.importScan_insert, hpast, ImportScan.names_run, hgain]
    rfl
  · rw [h.importScan_insert, hpast, ImportScan.lastEnd_run, hgain, Clauses.move, h.stop_gain]
    rfl

/-- Imports put in where imports may stand are read, and nothing else is. -/
theorem importScan_imports (h : AnchorAt pre t post)
    (hlevel : (scanThrough (pre ++ t :: post) pre.length).atImportLevel = true)
    {block : List Token} {names : List (Option String)} (hblock : ImportList block names)
    (hne : block ≠ []) :
    importedNames (pre ++ t :: (block ++ post)) =
        (scanThrough (pre ++ t :: post) pre.length).names ++ names.flatMap Option.toList ++
          lateNames pre t post ∧
      (importScan (pre ++ t :: (block ++ post))).lastEnd = some (pre.length + block.length) := by
  have hallows : (scanThrough (pre ++ t :: post) pre.length).allowsImport = true := by
    rw [ImportScan.allowsImport, hlevel, h.isStatementBoundary_last]
    rfl
  have hpast := ImportScan.past_importList hblock (pre.length + 1)
    ((placedFrom (pre.length + 1) post).map (Placed.shift block.length)) h.skip_scanThrough
    hallows hne
  have hend : pre.length + 1 + block.length - 1 = pre.length + block.length := by omega
  rw [hend] at hpast
  exact h.importScan_alike hpast ⟨rfl, rfl, rfl, h.isStatementBoundary_last.symm⟩

/-- Imports put into other code are not read. -/
theorem importedNames_inert (h : AnchorAt pre t post)
    (hlevel : (scanThrough (pre ++ t :: post) pre.length).atImportLevel = false)
    {block : List Token} (hblock : Inert (meaningful block)) :
    importedNames (pre ++ t :: (block ++ post)) = importedNames (pre ++ t :: post) := by
  have hpast := ImportScan.past_inert hblock (map_toToken_placedFrom (pre.length + 1) block)
    ((placedFrom (pre.length + 1) post).map (Placed.shift block.length)) h.skip_scanThrough
    hlevel
  have hawaits : (scanThrough (pre ++ t :: post) pre.length).awaitsBody = false := by
    have := h.atImportLevel_or_awaitsBody.resolve_left (by rw [hlevel]; simp)
    exact this.2
  rw [h.importedNames_eq]
  exact (h.importScan_alike hpast ⟨rfl, hawaits.symm, rfl, h.isStatementBoundary_last.symm⟩).1

end AnchorAt

end PhpImports
