import PhpImports.Names.Segments

/-!
# PhpImports — the namespace without the configured text

The segments of a generated import come from the namespace in two steps: the configured text is
taken out in one pass from the left, and what is left is cut at the separators. Here both steps are
described without a pass. What is taken out are the occurrences that one meets from left to right,
each the first behind the one before; the result is never looked at again, so an occurrence that
comes about by the removal stays. The segments are the one way to write a text as a join of texts
without separators.

## Results

* `Removes` — a text less the occurrences of another, from left to right.
* `removes_iff` — the pass finds exactly these occurrences.
* `IsSplit` — the segments of a text.
* `isSplit_iff` — a text has one list of segments.
* `importSegments_removes` — the segments of a generated import.
-/

namespace PhpImports

-- ---------------------------------------------------------------------------
-- Occurrences from left to right
-- ---------------------------------------------------------------------------

/-- `Removes part text out`: `out` is `text` less the occurrences of `part` that one meets from left
to right, each the first in the text behind the one before. -/
inductive Removes (part : List Char) : List Char → List Char → Prop
  /-- There is none any more. -/
  | rest {text : List Char} : ¬part <:+: text → Removes part text text
  /-- None begins before the one behind `before`. -/
  | first {before behind out : List Char} :
      (∀ k < before.length, ¬part <+: (before ++ part ++ behind).drop k) →
      Removes part behind out → Removes part (before ++ part ++ behind) (before ++ out)

section Removal

variable {part : List Char}

theorem removeFrom_skip (part : List Char) (skip : Nat) (text : List Char) :
    removeFrom part skip text = removeFrom part 0 (text.drop skip) := by
  induction text generalizing skip with
  | nil => simp [removeFrom]
  | cons c cs ih =>
    cases skip with
    | zero => rfl
    | succ skip =>
      rw [removeFrom, ih]
      rfl

/-- An occurrence at the front is dropped. -/
theorem removeFrom_append_self (hpart : part ≠ []) (behind : List Char) :
    removeFrom part 0 (part ++ behind) = removeFrom part 0 behind := by
  obtain ⟨c, tail, rfl⟩ := List.exists_cons_of_ne_nil hpart
  have hprefix : (c :: tail).isPrefixOf (c :: (tail ++ behind)) = true :=
    List.isPrefixOf_iff_prefix.2 (List.prefix_append (c :: tail) behind)
  rw [List.cons_append, removeFrom, if_pos hprefix, removeFrom_skip, List.length_cons,
    Nat.add_sub_cancel, List.drop_left]

/-- Characters at which no occurrence begins are kept. -/
theorem removeFrom_append_of_not {before behind : List Char}
    (h : ∀ k < before.length, ¬part <+: (before ++ behind).drop k) :
    removeFrom part 0 (before ++ behind) = before ++ removeFrom part 0 behind := by
  induction before with
  | nil => rfl
  | cons c before ih =>
    have hfront : ¬part.isPrefixOf (c :: (before ++ behind)) = true :=
      mt List.isPrefixOf_iff_prefix.1 (h 0 (Nat.succ_pos _))
    rw [List.cons_append, removeFrom, if_neg hfront, List.cons_append,
      ih fun k hk => h (k + 1) (Nat.succ_lt_succ hk)]

/-- The pass drops the occurrences that one meets from left to right. -/
theorem Removes.removeFrom_eq (hpart : part ≠ []) {text out : List Char}
    (h : Removes part text out) : removeFrom part 0 text = out := by
  induction h with
  | @rest text hnone =>
    have hkeep : removeFrom part 0 (text ++ []) = text ++ removeFrom part 0 [] := by
      refine removeFrom_append_of_not fun k _ hprefix => hnone ?_
      rw [List.append_nil] at hprefix
      exact hprefix.isInfix.trans (List.drop_suffix k text).isInfix
    rwa [List.append_nil, removeFrom, List.append_nil] at hkeep
  | first hfirst _ ih =>
    rw [List.append_assoc] at hfirst ⊢
    rw [removeFrom_append_of_not hfirst, removeFrom_append_self hpart, ih]

theorem Removes.append_self {behind out : List Char} (h : Removes part behind out) :
    Removes part (part ++ behind) out := by
  have hall : Removes part ([] ++ part ++ behind) ([] ++ out) := .first nofun h
  exact hall

/-- A character at which no occurrence begins changes nothing in the text behind it. -/
theorem Removes.cons {c : Char} {text out : List Char} (h : Removes part text out)
    (hfront : ¬part <+: c :: text) : Removes part (c :: text) (c :: out) := by
  cases h with
  | rest hnone =>
    refine .rest fun hinfix => ?_
    exact (List.infix_cons_iff.1 hinfix).elim hfront hnone
  | @first before behind out hfirst hbehind =>
    have hlater : ∀ k < (c :: before).length, ¬part <+: (c :: before ++ part ++ behind).drop k := by
      intro k hk
      cases k with
      | zero => exact hfront
      | succ k => exact hfirst k (Nat.lt_of_succ_lt_succ hk)
    exact .first hlater hbehind

/-- Every text can be gone through from left to right. -/
theorem exists_removes (hpart : part ≠ []) (text : List Char) : ∃ out, Removes part text out := by
  generalize hlen : text.length = len
  induction len using Nat.strongRecOn generalizing text with
  | ind len ih =>
    cases text with
    | nil => exact ⟨[], .rest fun hinfix => hpart (List.infix_nil.1 hinfix)⟩
    | cons c cs =>
      by_cases hfront : part <+: c :: cs
      · obtain ⟨behind, hbehind⟩ := hfront
        have hlength := congrArg List.length hbehind
        have hpos := List.length_pos_iff.2 hpart
        rw [List.length_append, hlen] at hlength
        obtain ⟨out, hout⟩ := ih behind.length (by omega) behind rfl
        rw [← hbehind]
        exact ⟨out, hout.append_self⟩
      · obtain ⟨out, hout⟩ := ih cs.length (by simp [← hlen]) cs rfl
        exact ⟨c :: out, hout.cons hfront⟩

theorem removes_iff (hpart : part ≠ []) {text out : List Char} :
    Removes part text out ↔ removeAll part text = out := by
  rw [removeAll, if_neg (by simpa using hpart)]
  constructor
  · exact fun h => h.removeFrom_eq hpart
  · rintro rfl
    obtain ⟨out, hout⟩ := exists_removes hpart text
    rwa [hout.removeFrom_eq hpart]

end Removal

-- ---------------------------------------------------------------------------
-- Segments
-- ---------------------------------------------------------------------------

/-- The segments of a text: texts without separators that give it when they are joined. -/
structure IsSplit (text : String) (segments : List String) : Prop where
  ne_nil : segments ≠ []
  plain : ∀ s ∈ segments, separator ∉ s.toList
  joined : (String.singleton separator).intercalate segments = text

theorem pieces_eq_splitOn (sep : Char) (cs : List Char) : pieces sep cs = cs.splitOn sep := by
  induction cs with
  | nil => simp [pieces]
  | cons c cs ih =>
    rw [pieces, List.splitOn_cons_eq_if_modifyHead, ih]
    by_cases hc : c = sep
    · simp [hc]
    · cases hs : cs.splitOn sep with
      | nil => exact absurd hs (List.splitOn_ne_nil _ _)
      | cons piece others => simp [hc]

theorem not_mem_of_mem_pieces {sep : Char} {cs piece : List Char} (h : piece ∈ pieces sep cs) :
    sep ∉ piece := by
  induction cs generalizing piece with
  | nil =>
    rw [pieces, List.mem_singleton] at h
    rw [h]
    exact List.not_mem_nil
  | cons c cs ih =>
    rw [pieces] at h
    split at h
    · rcases List.mem_cons.1 h with rfl | h
      · exact List.not_mem_nil
      · exact ih h
    · next hc =>
      cases hs : pieces sep cs with
      | nil => exact absurd hs (pieces_ne_nil sep cs)
      | cons p ps =>
        rw [hs] at h ih
        rcases List.mem_cons.1 h with rfl | h
        · have hp := ih List.mem_cons_self
          simp [hp, Ne.symm hc]
        · exact ih (List.mem_cons_of_mem _ h)

/-- A text has one list of segments. -/
theorem isSplit_iff {text : String} {segments : List String} :
    IsSplit text segments ↔ segments = (pieces separator text.toList).map String.ofList := by
  constructor
  · rintro ⟨hne, hplain, rfl⟩
    have hpieces : ([separator].intercalate (segments.map String.toList)).splitOn separator =
        segments.map String.toList :=
      List.splitOn_intercalate separator (by simpa using hplain) (by simpa using hne)
    rw [String.toList_intercalate, String.toList_singleton, pieces_eq_splitOn, hpieces]
    simp
  · rintro rfl
    refine ⟨?_, ?_, ?_⟩
    · simpa using pieces_ne_nil separator text.toList
    · intro s hs
      obtain ⟨piece, hpiece, rfl⟩ := List.mem_map.1 hs
      rw [String.toList_ofList]
      exact not_mem_of_mem_pieces hpiece
    · rw [← String.toList_inj, String.toList_intercalate, String.toList_singleton, List.map_map]
      simpa using intercalate_pieces separator text.toList

-- ---------------------------------------------------------------------------
-- The segments of a generated import
-- ---------------------------------------------------------------------------

/-- What is cut into segments is the namespace less the occurrences of the text. -/
theorem isSplit_importSegments {part ns out : String} (hpart : part ≠ "")
    (h : Removes part.toList ns.toList out.toList) {segments : List String} :
    IsSplit out segments ↔ segments = importSegments part ns := by
  have hout : removeAll part.toList ns.toList = out.toList :=
    (removes_iff (by simpa using hpart)).1 h
  rw [isSplit_iff, importSegments, hout]

/-- The segments of a generated import are texts without separators that, joined, give the namespace
less the occurrences of the configured text, from left to right. If it stands at the front and
nowhere else, they are the segments of what follows it; if it does not occur, those of the
namespace. -/
theorem importSegments_removes {part : String} (hpart : part ≠ "") (ns : String) :
    importSegments part ns ≠ [] ∧
    (∀ s ∈ importSegments part ns, separator ∉ s.toList) ∧
    (∀ out : String, Removes part.toList ns.toList out.toList ↔
      (String.singleton separator).intercalate (importSegments part ns) = out) ∧
    (∀ rest : String, ns = part ++ rest → ¬part.toList <:+: rest.toList →
      ∀ segments, IsSplit rest segments ↔ segments = importSegments part ns) ∧
    (¬part.toList <:+: ns.toList →
      ∀ segments, IsSplit ns segments ↔ segments = importSegments part ns) := by
  have hne : part.toList ≠ [] := by simpa using hpart
  obtain ⟨out, hout⟩ : ∃ out : String, Removes part.toList ns.toList out.toList := by
    obtain ⟨out, hout⟩ := exists_removes hne ns.toList
    exact ⟨String.ofList out, by rwa [String.toList_ofList]⟩
  obtain ⟨hnil, hplain, hjoined⟩ := (isSplit_importSegments hpart hout).2 rfl
  refine ⟨hnil, hplain, fun out' => ?_, ?_, ?_⟩
  · rw [hjoined, removes_iff hne, (removes_iff hne).1 hout, String.toList_inj]
  · rintro rest rfl hnone segments
    refine isSplit_importSegments hpart ?_
    rw [String.toList_append]
    exact (Removes.rest hnone).append_self
  · intro hnone segments
    exact isSplit_importSegments hpart (.rest hnone)

/-- Of two occurrences that overlap the first is taken out, and the one that comes about by this
stays; a text that stands at the front only is taken out there. -/
theorem importSegments_removes_overlapping :
    "aba" ≠ "" ∧ importSegments "aba" "T\\aababa" = ["T", "aba"] ∧
      Removes "aba".toList "T\\aababa".toList "T\\aba".toList ∧
      "T\\" ≠ "" ∧ ¬"T\\".toList <:+: "A\\B".toList ∧
      IsSplit "A\\B" (importSegments "T\\" "T\\A\\B") := by
  have hpart : "aba" ≠ "" := by decide
  have hfront : "T\\" ≠ "" := by decide
  have hsegments : importSegments "aba" "T\\aababa" = ["T", "aba"] := by decide
  have hnone : ¬"T\\".toList <:+: "A\\B".toList := by decide
  refine ⟨hpart, hsegments, ?_, hfront, hnone, ?_⟩
  · refine ((importSegments_removes hpart "T\\aababa").2.2.1 "T\\aba").2 ?_
    rw [hsegments]
    decide
  · exact ((importSegments_removes hfront "T\\A\\B").2.2.2.1 "A\\B" (by decide) hnone _).2 rfl

end PhpImports
