import PhpImports.Names.Analysis

/-!
# PhpImports — used and missing names

The used names are identifiers of the unit; they come without repetitions, and reserved
names are never among them. The missing names are the used ones less those that need no
import, so the same holds of them.

## Results

* `nodup_usedNames`, `mentioned_of_mem_usedNames` — the names that are used.
* `SameUsages` — two units that use and declare the same.
* `missingNames_eq` — the names that are missing, as a difference.
* `missingNames_eq_nil_iff` — nothing is missing if every used name is resolved.
-/

namespace PhpImports

-- ---------------------------------------------------------------------------
-- Used names
-- ---------------------------------------------------------------------------

theorem nodup_eraseDups (l : List String) : l.eraseDups.Nodup := by
  generalize hn : l.length = n
  induction n using Nat.strongRecOn generalizing l with
  | ind n ih =>
    cases l with
    | nil => exact List.nodup_nil
    | cons a as =>
      rw [List.eraseDups_cons, List.nodup_cons]
      refine ⟨by simp, ih _ ?_ _ rfl⟩
      have hle : (as.filter fun b => !b == a).length ≤ as.length := List.length_filter_le ..
      rw [List.length_cons] at hn
      omega

theorem nodup_usedNames (ts : List Token) : (usedNames ts).Nodup :=
  nodup_eraseDups _

/-- A name that tokens mention: the text of an identifier, and not reserved. -/
def Mentioned (ts : List Token) (n : String) : Prop :=
  isReserved n = false ∧ ∃ t ∈ ts, t.kind = .identifier ∧ t.text = n

theorem Mentioned.mono {ts us : List Token} {n : String} (h : Mentioned ts n)
    (hsub : ∀ t ∈ ts, t ∈ us) : Mentioned us n := by
  obtain ⟨hreserved, t, ht, hkind, htext⟩ := h
  exact ⟨hreserved, t, hsub t ht, hkind, htext⟩

theorem exists_of_mem_mentionsAfter {before : Option Kind} {ts : List Token} {m : Mention}
    (h : m ∈ mentionsAfter before ts) : ∃ t ∈ ts, t.kind = .identifier ∧ t.text = m.name := by
  induction ts generalizing before with
  | nil => simp [mentionsAfter] at h
  | cons t ts ih =>
    have later : m ∈ mentionsAfter (some t.kind) ts →
        ∃ u ∈ t :: ts, u.kind = .identifier ∧ u.text = m.name := by
      intro hm
      obtain ⟨u, hu, hname⟩ := ih hm
      exact ⟨u, List.mem_cons_of_mem _ hu, hname⟩
    unfold mentionsAfter at h
    split at h
    · next hkind =>
      rcases List.mem_cons.1 h with rfl | h
      · exact ⟨t, List.mem_cons_self, hkind, rfl⟩
      · exact later h
    · exact later h

theorem mentioned_of_mem_namesWhere {context : Mention → Bool} {ts : List Token} {n : String}
    (h : n ∈ namesWhere context ts) : Mentioned ts n := by
  refine ⟨not_isReserved_of_mem_namesWhere h, ?_⟩
  obtain ⟨m, hm, rfl⟩ := List.mem_map.1 h
  exact exists_of_mem_mentionsAfter (List.mem_filter.1 hm).1

theorem mem_of_leadingBlock? {br : Bracket} {ts body rest : List Token}
    (h : leadingBlock? br ts = some (body, rest)) :
    (∀ t ∈ body, t ∈ ts) ∧ ∀ t ∈ rest, t ∈ ts := by
  cases ts with
  | nil => simp [leadingBlock?] at h
  | cons u ts =>
    rw [leadingBlock?] at h
    split at h
    · obtain ⟨v, -, rfl⟩ := closeBlock_eq_append h
      constructor
      · intro t ht
        exact List.mem_cons_of_mem _ (List.mem_append.2 (.inl ht))
      · intro t ht
        exact List.mem_cons_of_mem _ (List.mem_append.2 (.inr (List.mem_cons_of_mem _ ht)))
    · simp at h

theorem mentioned_of_mem_caughtTypesFrom {skip : Nat} {ts : List Token} {n : String}
    (h : n ∈ caughtTypesFrom skip ts) : Mentioned ts n := by
  induction ts generalizing skip with
  | nil => simp [caughtTypesFrom] at h
  | cons t ts ih =>
    have later : ∀ skip, n ∈ caughtTypesFrom skip ts → Mentioned (t :: ts) n := by
      intro skip hn
      exact (ih hn).mono fun u hu => List.mem_cons_of_mem _ hu
    cases skip with
    | succ k => exact later k h
    | zero =>
      unfold caughtTypesFrom at h
      split at h
      · next clause rest hclause =>
        rcases List.mem_append.1 h with h | h
        · have hblock : leadingBlock? .parenthesis ts = some (clause, rest) := by
            split at hclause
            · exact hclause
            · simp at hclause
          refine (mentioned_of_mem_namesWhere h).mono ?_
          intro u hu
          exact List.mem_cons_of_mem _ ((mem_of_leadingBlock? hblock).1 u hu)
        · exact later _ h
      · exact later 0 h

theorem mentioned_of_resultType? {ts : List Token} {n : String}
    (h : resultType? ts = some n) : Mentioned ts n := by
  unfold resultType? at h
  split at h
  · next colon type stop rest =>
    split at h
    · next hcond =>
      cases h
      simp only [Bool.and_eq_true, Bool.not_eq_true', decide_eq_true_eq] at hcond
      exact ⟨hcond.2, type, by simp, hcond.1.1.2, rfl⟩
    · simp at h
  · simp at h

theorem mem_of_mem_dropKind {k : Kind} {ts : List Token} {t : Token} (h : t ∈ dropKind k ts) :
    t ∈ ts := by
  cases ts with
  | nil => exact h
  | cons u ts =>
    rw [dropKind] at h
    split at h
    · exact List.mem_cons_of_mem _ h
    · exact h

theorem mentioned_of_mem_typesOfSignature {ts : List Token} {n : String}
    (h : n ∈ typesOfSignature ts) : Mentioned ts n := by
  unfold typesOfSignature at h
  split at h
  · next params rest hparams =>
    obtain ⟨hbody, hrest⟩ := mem_of_leadingBlock? hparams
    rcases List.mem_append.1 h with h | h
    · refine (mentioned_of_mem_namesWhere h).mono ?_
      intro t ht
      exact mem_of_mem_dropKind (mem_of_mem_dropKind (hbody t ht))
    · refine (mentioned_of_resultType? (Option.mem_toList.1 h)).mono ?_
      intro t ht
      exact mem_of_mem_dropKind (mem_of_mem_dropKind (hrest t ht))
  · simp at h

theorem mentioned_of_mem_signatureTypesFrom {ts : List Token} {n : String}
    (h : n ∈ signatureTypesFrom ts) : Mentioned ts n := by
  induction ts with
  | nil => simp [signatureTypesFrom] at h
  | cons t ts ih =>
    have hsub : ∀ u ∈ ts, u ∈ t :: ts := fun u hu => List.mem_cons_of_mem _ hu
    unfold signatureTypesFrom at h
    split at h
    · rcases List.mem_append.1 h with h | h
      · exact (mentioned_of_mem_typesOfSignature h).mono hsub
      · exact (ih h).mono hsub
    · exact (ih h).mono hsub

/-- Used names are identifiers of the unit, and reserved names are never among them. -/
theorem mentioned_of_mem_usedNames {ts : List Token} {n : String} (h : n ∈ usedNames ts) :
    Mentioned ts n := by
  have hmentioned : Mentioned (meaningful ts) n := by
    rcases mem_usedNames.1 h with h | h | h | h
    · exact mentioned_of_mem_namesWhere h
    · exact mentioned_of_mem_namesWhere h
    · exact mentioned_of_mem_caughtTypesFrom h
    · exact mentioned_of_mem_signatureTypesFrom h
  exact hmentioned.mono fun t ht => (List.mem_filter.1 ht).1

-- ---------------------------------------------------------------------------
-- Units that use the same
-- ---------------------------------------------------------------------------

/-- The units `ts` and `us` use and declare the same: each scan finds the same names in both, in
the same order and with the same repetitions. -/
structure SameUsages (ts us : List Token) : Prop where
  instantiations_eq : instantiations us = instantiations ts
  staticAccesses_eq : staticAccesses us = staticAccesses ts
  caughtTypes_eq : caughtTypes us = caughtTypes ts
  signatureTypes_eq : signatureTypes us = signatureTypes ts
  declaredTypes_eq : declaredTypes us = declaredTypes ts

theorem SameUsages.rfl {ts : List Token} : SameUsages ts ts :=
  ⟨Eq.refl _, Eq.refl _, Eq.refl _, Eq.refl _, Eq.refl _⟩

theorem SameUsages.usedNames_eq {ts us : List Token} (h : SameUsages ts us) :
    usedNames us = usedNames ts := by
  rw [usedNames, usedNames, h.instantiations_eq, h.staticAccesses_eq, h.caughtTypes_eq,
    h.signatureTypes_eq]

-- ---------------------------------------------------------------------------
-- Missing names
-- ---------------------------------------------------------------------------

/-- The missing names are the used names, in their order, less the imported and the declared
ones. -/
theorem missingNames_eq (ts : List Token) :
    missingNames ts =
      (usedNames ts).filter fun n => n ∉ importedNames ts ∧ n ∉ declaredTypes ts := by
  unfold missingNames
  apply List.filter_congr
  intro n _
  simp [mem_resolvedNames]

theorem missingNames_eq_nil_iff {ts : List Token} :
    missingNames ts = [] ↔
      ∀ n ∈ usedNames ts, n ∈ importedNames ts ∨ n ∈ declaredTypes ts := by
  rw [List.eq_nil_iff_forall_not_mem]
  constructor
  · intro h n hn
    by_cases hi : n ∈ importedNames ts
    · exact .inl hi
    · by_cases hd : n ∈ declaredTypes ts
      · exact .inr hd
      · exact absurd (mem_missingNames.2 ⟨hn, hi, hd⟩) (h n)
  · intro h n hn
    obtain ⟨hu, hi, hd⟩ := mem_missingNames.1 hn
    exact (h n hu).elim hi hd

end PhpImports
