import Mathlib.Data.List.Basic
import Mathlib.Data.List.TakeWhile
import PhpImports.Proofs.Names.Inert
import PhpImports.Proofs.Names.Place

/-!
# PhpImports — the namespace of a unit with imports put in

The first `namespace` that declares one decides, and its declaration is read through the
next `;` or `{`. So imports put in behind it change nothing. Imports put in before it
move it, unless one of them ends with the word `namespace`: this is taken for a
declaration without a name, and the unit has no namespace then.

## Results

* `declaresNamespace`                   — whether some `namespace` declares one.
* `firstNamespace?_append_of_declares`  — what comes behind a declaration.
* `firstNamespace?_append_of_not`       — what comes before it.
* `Inert.firstNamespace?_eq_none`       — a declaration without a name.
* `namespaceDecl?_insert`               — the namespace of the extended unit.
* `namespaceDecl?_insert_eq_none_iff`   — when the namespace of a unit is lost.
-/

namespace PhpImports

/-- Whether some `namespace` among tokens without trivia declares one. -/
def declaresNamespace : List Token → Bool
  | [] => false
  | t :: ts =>
    (t.kind = .keyword .namespaceKw && !ts.head?.any (·.kind = .nsSeparator)) ||
      declaresNamespace ts

/-- A declaration whose positions `g` moves. -/
def NamespaceDecl.move (g : Nat → Nat) (ns : NamespaceDecl) : NamespaceDecl :=
  { ns with stop := g ns.stop }

/-- A declaration `n` positions further on. -/
def NamespaceDecl.shift (n : Nat) (ns : NamespaceDecl) : NamespaceDecl :=
  { ns with stop := ns.stop + n }

-- ---------------------------------------------------------------------------
-- Reading a declaration
-- ---------------------------------------------------------------------------

/-- A declaration is read through its end, and no further. -/
theorem readNamespace?_append {us : List Placed} (vs : List Placed)
    (h : ∃ p ∈ us, p.endsDecl = true) : readNamespace? (us ++ vs) = readNamespace? us := by
  have hends : ¬ ∀ p ∈ us, (!p.endsDecl) = true := by
    intro hall
    obtain ⟨p, hp, hend⟩ := h
    have := hall p hp
    rw [hend] at this
    exact absurd this (by simp)
  have hdrop : us.dropWhile (!·.endsDecl) ≠ [] := by
    rw [ne_eq, List.dropWhile_eq_nil_iff]
    exact hends
  have htake : (us.takeWhile (!·.endsDecl)).length ≠ us.length := by
    intro hlen
    refine hends ?_
    rw [← List.takeWhile_eq_self_iff]
    exact (List.takeWhile_sublist _).eq_of_length hlen
  unfold readNamespace?
  rw [List.takeWhile_append, if_neg htake, List.dropWhile_append,
    if_neg (by rw [List.isEmpty_iff]; exact hdrop)]
  cases hd : us.dropWhile (!·.endsDecl) with
  | nil => exact absurd hd hdrop
  | cons p rest => rfl

theorem readNamespace?_map_move (g : Nat → Nat) (ts : List Placed) :
    readNamespace? (ts.map (Placed.move g)) = (readNamespace? ts).map (NamespaceDecl.move g) := by
  have htexts : ((ts.map (Placed.move g)).takeWhile (!·.endsDecl)).map Placed.toToken =
      (ts.takeWhile (!·.endsDecl)).map Placed.toToken := by
    rw [List.takeWhile_map, List.map_map]
    rfl
  have hrest : (ts.map (Placed.move g)).dropWhile (!·.endsDecl) =
      (ts.dropWhile (!·.endsDecl)).map (Placed.move g) := by
    rw [List.dropWhile_map]
    rfl
  unfold readNamespace?
  rw [htexts, hrest]
  cases ts.dropWhile (!·.endsDecl) with
  | nil => rfl
  | cons p rest =>
    rw [List.map_cons]
    dsimp only
    rw [apply_ite (Option.map (NamespaceDecl.move g))]
    rfl

-- ---------------------------------------------------------------------------
-- Searching for the first declaration
-- ---------------------------------------------------------------------------

theorem head?_map_toToken (ts : List Placed) :
    (ts.map Placed.toToken).head?.any (·.kind = .nsSeparator) =
      ts.head?.any (·.kind = .nsSeparator) := by
  cases ts <;> rfl

/-- Tokens in which nothing is declared are passed over. -/
theorem firstNamespace?_append_of_not {us : List Placed} (vs : List Placed)
    (h : declaresNamespace (us.map Placed.toToken) = false)
    (hlast : ∀ p ∈ us.getLast?, p.kind ≠ .keyword .namespaceKw) :
    firstNamespace? (us ++ vs) = firstNamespace? vs := by
  induction us with
  | nil => rfl
  | cons t us ih =>
    rw [List.map_cons, declaresNamespace, Bool.or_eq_false_iff, head?_map_toToken] at h
    obtain ⟨hhere, hrest⟩ := h
    -- the token after `t` is the same with and without `vs`, unless `t` is the last one
    have hnot : ¬ ((t.kind = .keyword .namespaceKw &&
        !(us ++ vs).head?.any (·.kind = .nsSeparator)) = true) := by
      cases us with
      | nil =>
        have ht := hlast t (by simp)
        simp [ht]
      | cons u us =>
        rw [Bool.not_eq_true]
        exact hhere
    rw [List.cons_append, firstNamespace?, if_neg hnot]
    exact ih hrest fun p hp => hlast p (List.mem_getLast?_cons hp)

/-- Behind a declaration and its end nothing matters. -/
theorem firstNamespace?_append_of_declares {us : List Placed} (vs : List Placed)
    (h : declaresNamespace (us.map Placed.toToken) = true)
    (hlast : ∃ p, us.getLast? = some p ∧ p.endsDecl = true) :
    firstNamespace? (us ++ vs) = firstNamespace? us := by
  induction us with
  | nil => simp [declaresNamespace] at h
  | cons t us ih =>
    obtain ⟨p, hp, hend⟩ := hlast
    cases us with
    | nil =>
      -- the end of a declaration declares nothing
      rw [List.getLast?_singleton, Option.some.injEq] at hp
      subst hp
      rw [Placed.endsDecl, Bool.or_eq_true, decide_eq_true_eq, decide_eq_true_eq] at hend
      rcases hend with hend | hend <;> simp [declaresNamespace, hend] at h
    | cons u us =>
      rw [List.getLast?_cons_cons] at hp
      have hmem : p ∈ u :: us := List.mem_of_getLast? hp
      rw [List.map_cons, declaresNamespace, head?_map_toToken] at h
      rw [List.cons_append, firstNamespace?, firstNamespace?]
      show (if (t.kind = .keyword .namespaceKw &&
          !(u :: us).head?.any (·.kind = .nsSeparator)) = true
        then readNamespace? ((u :: us) ++ vs) else firstNamespace? ((u :: us) ++ vs)) = _
      split
      · exact readNamespace?_append vs ⟨p, hmem, hend⟩
      · next hnot =>
        rw [Bool.not_eq_true] at hnot
        rw [hnot, Bool.false_or] at h
        exact ih h ⟨p, hp, hend⟩

theorem firstNamespace?_map_move (g : Nat → Nat) (ts : List Placed) :
    firstNamespace? (ts.map (Placed.move g)) =
      (firstNamespace? ts).map (NamespaceDecl.move g) := by
  induction ts with
  | nil => rfl
  | cons t ts ih =>
    have hhead : (ts.map (Placed.move g)).head?.any (·.kind = .nsSeparator) =
        ts.head?.any (·.kind = .nsSeparator) := by
      cases ts <;> rfl
    rw [List.map_cons, firstNamespace?, firstNamespace?, hhead, ih, readNamespace?_map_move,
      Placed.kind_move]
    split
    · rfl
    · rfl

theorem firstNamespace?_map_shift (n : Nat) (ts : List Placed) :
    firstNamespace? (ts.map (Placed.shift n)) =
      (firstNamespace? ts).map (NamespaceDecl.shift n) :=
  firstNamespace?_map_move (· + n) ts

/-- A declaration among imports is one without a name. -/
theorem Inert.firstNamespace?_eq_none {b : List Token} (hb : Inert b) {ps : List Placed}
    (hps : ps.map Placed.toToken = b) (hdecl : declaresNamespace b = true) (vs : List Placed) :
    firstNamespace? (ps ++ vs) = none := by
  induction hb generalizing ps with
  | @stop t ht => simp [declaresNamespace, ht] at hdecl
  | @word t u ts ht hu _ ih =>
    obtain ⟨p, ps, rfl, rfl, hrest⟩ := List.map_eq_cons_iff.1 hps
    obtain ⟨q, qs, rfl, rfl, htail⟩ := List.map_eq_cons_iff.1 hrest
    rw [List.cons_append, firstNamespace?]
    split
    · next hhere =>
      -- the word `namespace` before a `;`
      have hq : q.kind = .semicolon := by
        refine hu.resolve_left ?_
        intro hsep
        simp [hsep] at hhere
      have hend : q.endsDecl = true := by
        rw [Placed.endsDecl, hq]
        rfl
      rw [List.cons_append, readNamespace?, List.takeWhile_cons_of_neg (by simp [hend]),
        List.dropWhile_cons_of_neg (by simp [hend])]
      rfl
    · next hnot =>
      refine ih hrest ?_
      rw [declaresNamespace, Bool.or_eq_true] at hdecl
      refine hdecl.resolve_left ?_
      intro hhere
      exact hnot hhere
  | @link t ts ht _ ih =>
    obtain ⟨p, ps, rfl, rfl, hrest⟩ := List.map_eq_cons_iff.1 hps
    have hkind : p.kind ≠ .keyword .namespaceKw := by
      intro h
      rw [h] at ht
      simp [Kind.isLink] at ht
    rw [List.cons_append, firstNamespace?, if_neg (by simp [hkind])]
    refine ih hrest ?_
    rw [declaresNamespace] at hdecl
    simpa [hkind] using hdecl

-- ---------------------------------------------------------------------------
-- The extended unit
-- ---------------------------------------------------------------------------

theorem Inert.last_eq_semicolon {b : List Token} (hb : Inert b) :
    ∃ t, b.getLast? = some t ∧ t.kind = .semicolon := by
  induction hb with
  | stop ht => exact ⟨_, rfl, ht⟩
  | word _ _ _ ih =>
    rw [List.getLast?_cons_cons]
    exact ih
  | @link t ts _ hts ih =>
    obtain ⟨u, hu, hkind⟩ := ih
    refine ⟨u, ?_, hkind⟩
    cases ts with
    | nil => simp at hu
    | cons v ts => rw [List.getLast?_cons_cons, hu]

/-- Imports put in behind the end of the declaration leave the namespace of a unit as it is.
Imports put in before it move the declaration, unless the word `namespace` ends one of them. -/
theorem namespaceDecl?_insert {pre post : List Token} {t : Token}
    (ht : t.kind = .semicolon ∨ t.kind = .lBrace) {block : List Token}
    (hblock : Inert (meaningful block)) {ns : NamespaceDecl}
    (hns : namespaceDecl? (pre ++ t :: post) = some ns) :
    namespaceDecl? (pre ++ t :: (block ++ post)) =
      if pre.length < ns.stop then
        if declaresNamespace (meaningful block) then none else some (ns.shift block.length)
      else some ns := by
  have hmeaningful := isMeaningful_of_mark ht
  let us : List Placed := placed pre ++ [⟨t, pre.length⟩]
  let vs : List Placed := placedFrom (pre.length + 1) post
  let ps : List Placed := placedFrom (pre.length + 1) block
  have hbefore : namespaceDecl? (pre ++ t :: post) = firstNamespace? (us ++ vs) := by
    rw [namespaceDecl?, placed, placedFrom_cut 0 pre hmeaningful, Nat.zero_add, List.append_cons]
    rfl
  have hafter : namespaceDecl? (pre ++ t :: (block ++ post)) =
      firstNamespace? (us ++ (ps ++ vs.map (Placed.shift block.length))) := by
    rw [namespaceDecl?, placed, placedFrom_cut 0 pre hmeaningful, Nat.zero_add, List.append_cons,
      placedFrom_append, placedFrom_add (pre.length + 1) block.length]
    rfl
  have hlast : us.getLast? = some ⟨t, pre.length⟩ := List.getLast?_concat
  rw [hbefore] at hns
  rw [hafter]
  cases hdecl : declaresNamespace (us.map Placed.toToken) with
  | true =>
    -- the declaration ends at the mark or before it
    have hends : ∃ p, us.getLast? = some p ∧ p.endsDecl = true := by
      refine ⟨_, hlast, ?_⟩
      rcases ht with ht | ht <;> rw [Placed.endsDecl, ht] <;> rfl
    rw [firstNamespace?_append_of_declares _ hdecl hends] at hns ⊢
    obtain ⟨p, hp, hstop, -⟩ := stop_of_firstNamespace? hns
    have hle : p.index ≤ pre.length := by
      rcases List.mem_append.1 hp with hp | hp
      · have := (index_of_mem_placedFrom hp).2
        omega
      · rw [List.mem_singleton.1 hp]
    rw [hns, if_neg (by omega)]
  | false =>
    have hnot : ∀ p ∈ us.getLast?, p.kind ≠ .keyword .namespaceKw := by
      intro p hp
      rw [hlast] at hp
      cases hp
      rcases ht with ht | ht <;> simp [ht]
    rw [firstNamespace?_append_of_not _ hdecl hnot] at hns ⊢
    obtain ⟨p, hp, hstop, -⟩ := stop_of_firstNamespace? hns
    have hlt : pre.length < ns.stop := by
      have := (index_of_mem_placedFrom hp).1
      omega
    have hps : ps.map Placed.toToken = meaningful block := map_toToken_placedFrom _ _
    rw [if_pos hlt]
    split
    · next hinside => exact hblock.firstNamespace?_eq_none hps hinside _
    · next hinside =>
      obtain ⟨u, hu, hkind⟩ := hblock.last_eq_semicolon
      have hpass : ∀ p ∈ ps.getLast?, p.kind ≠ .keyword .namespaceKw := by
        intro p hp
        have heq : u = p.toToken := by
          rw [← hps, List.getLast?_map, hp] at hu
          exact (Option.some.inj hu).symm
        rw [heq] at hkind
        simp [hkind]
      rw [Bool.not_eq_true] at hinside
      rw [firstNamespace?_append_of_not _ (by rw [hps]; exact hinside) hpass,
        firstNamespace?_map_shift, hns]
      rfl

/-- A unit loses its namespace exactly if imports are put in before its declaration and the word
`namespace` ends one of them. -/
theorem namespaceDecl?_insert_eq_none_iff {pre post : List Token} {t : Token}
    (ht : t.kind = .semicolon ∨ t.kind = .lBrace) {block : List Token}
    (hblock : Inert (meaningful block)) {ns : NamespaceDecl}
    (hns : namespaceDecl? (pre ++ t :: post) = some ns) :
    namespaceDecl? (pre ++ t :: (block ++ post)) = none ↔
      pre.length < ns.stop ∧ declaresNamespace (meaningful block) = true := by
  rw [namespaceDecl?_insert ht hblock hns]
  split
  · next hlt =>
    split
    · next hdecl => simp [hlt, hdecl]
    · next hdecl => simp [hdecl]
  · next hle => simp [hle]

end PhpImports
