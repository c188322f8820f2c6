import Mathlib.Data.List.TakeWhile
import PhpImports.Names.Import
import PhpImports.Names.Namespace
import PhpImports.Proofs.Token.Navigation

/-!
# PhpImports — the places of tokens

The scans for the namespace and for imports report positions of the whole sequence,
although they only see the tokens that are not trivia. This module says how places
behave when sequences are joined, and which tokens stand at the reported positions.

## Results

* `Placed.Recasts` — maps that keep what the scan for imports looks at.
* `placedFrom_append`, `placedFrom_add` — places in a joined and in a moved sequence.
* `pairwise_index_placedFrom` — places ascend.
* `getElem?_stop` — a namespace declaration ends with a `;` or a `{`.
-/

namespace PhpImports

-- ---------------------------------------------------------------------------
-- Joined and moved sequences
-- ---------------------------------------------------------------------------

/-- The same token `n` positions further on. -/
def Placed.shift (n : Nat) (p : Placed) : Placed :=
  { p with index := p.index + n }

@[simp] theorem Placed.kind_shift (n : Nat) (p : Placed) : (p.shift n).kind = p.kind := rfl

@[simp] theorem Placed.text_shift (n : Nat) (p : Placed) : (p.shift n).text = p.text := rfl

@[simp] theorem Placed.index_shift (n : Nat) (p : Placed) : (p.shift n).index = p.index + n := rfl

/-- The same token at the position to which `g` sends its own. -/
def Placed.move (g : Nat → Nat) (p : Placed) : Placed :=
  { p with index := g p.index }

@[simp] theorem Placed.kind_move (g : Nat → Nat) (p : Placed) : (p.move g).kind = p.kind := rfl

/-- A map of placed tokens that keeps kinds and the texts of identifiers; the positions are those
to which `g` sends the old ones. -/
structure Placed.Recasts (g : Nat → Nat) (h : Placed → Placed) : Prop where
  kind_eq : ∀ p, (h p).kind = p.kind
  text_eq : ∀ p, p.kind = .identifier → (h p).text = p.text
  index_eq : ∀ p, (h p).index = g p.index

theorem Placed.recasts_move (g : Nat → Nat) : Placed.Recasts g (Placed.move g) :=
  ⟨fun _ => rfl, fun _ _ => rfl, fun _ => rfl⟩

theorem Placed.recasts_shift (n : Nat) : Placed.Recasts (· + n) (Placed.shift n) :=
  Placed.recasts_move (· + n)

theorem placedFrom_append (start : Nat) (ts us : List Token) :
    placedFrom start (ts ++ us) = placedFrom start ts ++ placedFrom (start + ts.length) us := by
  induction ts generalizing start with
  | nil => simp [placedFrom]
  | cons t ts ih =>
    have hlen : start + (t :: ts).length = start + 1 + ts.length := by
      rw [List.length_cons]
      omega
    rw [List.cons_append, placedFrom, placedFrom, ih, hlen]
    split <;> simp

/-- A sequence cut at a token that is not trivia. -/
theorem placedFrom_cut (start : Nat) (ts : List Token) {t : Token} (ht : t.isMeaningful = true)
    (us : List Token) :
    placedFrom start (ts ++ t :: us) =
      placedFrom start ts ++ ⟨t, start + ts.length⟩ :: placedFrom (start + ts.length + 1) us := by
  rw [placedFrom_append, placedFrom, if_pos ht]

/-- What a scan sees, cut at one token, comes from the sequence cut at this token. -/
theorem exists_of_placedFrom_eq {start : Nat} {ts : List Token} {us vs : List Placed} {p : Placed}
    (h : placedFrom start ts = us ++ p :: vs) :
    ∃ pre post, ts = pre ++ p.toToken :: post ∧ p.index = start + pre.length ∧
      placedFrom start pre = us ∧ placedFrom (p.index + 1) post = vs := by
  induction ts generalizing start us with
  | nil => simp [placedFrom] at h
  | cons t ts ih =>
    rw [placedFrom] at h
    split at h
    · next ht =>
      cases us with
      | nil =>
        rw [List.nil_append, List.cons.injEq] at h
        obtain ⟨rfl, hvs⟩ := h
        exact ⟨[], ts, rfl, rfl, rfl, hvs⟩
      | cons u us =>
        rw [List.cons_append, List.cons.injEq] at h
        obtain ⟨rfl, hrest⟩ := h
        obtain ⟨pre, post, rfl, hindex, hpre, hpost⟩ := ih hrest
        refine ⟨t :: pre, post, rfl, ?_, ?_, hpost⟩
        · rw [hindex, List.length_cons]
          omega
        · rw [placedFrom, if_pos ht, hpre]
    · next ht =>
      obtain ⟨pre, post, rfl, hindex, hpre, hpost⟩ := ih h
      refine ⟨t :: pre, post, rfl, ?_, ?_, hpost⟩
      · rw [hindex, List.length_cons]
        omega
      · rw [placedFrom, if_neg ht, hpre]

theorem placedFrom_add (start n : Nat) (ts : List Token) :
    placedFrom (start + n) ts = (placedFrom start ts).map (Placed.shift n) := by
  induction ts generalizing start with
  | nil => rfl
  | cons t ts ih =>
    have hstart : start + n + 1 = start + 1 + n := by omega
    rw [placedFrom, placedFrom, hstart, ih]
    split
    · rfl
    · rfl

theorem index_of_mem_placedFrom {start : Nat} {ts : List Token} {p : Placed}
    (h : p ∈ placedFrom start ts) : start ≤ p.index ∧ p.index < start + ts.length := by
  obtain ⟨hle, hget⟩ := getElem?_of_mem_placedFrom h
  have hlt := (List.getElem?_eq_some_iff.1 hget).1
  omega

/-- Places ascend. -/
theorem pairwise_index_placedFrom (start : Nat) (ts : List Token) :
    (placedFrom start ts).Pairwise (·.index < ·.index) := by
  induction ts generalizing start with
  | nil => exact List.Pairwise.nil
  | cons t ts ih =>
    unfold placedFrom
    split
    · refine List.Pairwise.cons ?_ (ih _)
      intro p hp
      exact (index_of_mem_placedFrom hp).1
    · exact ih _

/-- A token seen by a scan stands at its place. -/
theorem getElem?_of_mem_placed {ts : List Token} {p : Placed} (h : p ∈ placed ts) :
    ts[p.index]? = some p.toToken := by
  have hget := (getElem?_of_mem_placedFrom h).2
  rwa [Nat.sub_zero] at hget

-- ---------------------------------------------------------------------------
-- The end of the namespace declaration
-- ---------------------------------------------------------------------------

/-- A declaration is cut at its end. -/
theorem exists_of_readNamespace? {ts : List Placed} {ns : NamespaceDecl}
    (h : readNamespace? ts = some ns) :
    ∃ name stop vs, ts = name ++ stop :: vs ∧ (∀ p ∈ name, p.endsDecl = false) ∧
      stop.endsDecl = true ∧ ns = ⟨sourceText (name.map Placed.toToken), stop.index⟩ := by
  unfold readNamespace? at h
  dsimp only at h
  cases hd : ts.dropWhile (!·.endsDecl) with
  | nil => simp [hd] at h
  | cons stop vs =>
    have hends : stop.endsDecl = true := by
      have hhead := List.head?_dropWhile_not (fun q : Placed => !q.endsDecl) ts
      rw [hd] at hhead
      simpa using hhead
    rw [hd] at h
    dsimp only at h
    split at h
    · exact absurd h (by simp)
    · refine ⟨ts.takeWhile (!·.endsDecl), stop, vs, ?_, ?_, hends, (Option.some.inj h).symm⟩
      · rw [← hd, List.takeWhile_append_dropWhile]
      · intro p hp
        simpa using List.mem_takeWhile_imp hp

theorem stop_of_firstNamespace? {ts : List Placed} {ns : NamespaceDecl}
    (h : firstNamespace? ts = some ns) :
    ∃ p ∈ ts, p.index = ns.stop ∧ p.endsDecl = true := by
  induction ts with
  | nil => simp [firstNamespace?] at h
  | cons t ts ih =>
    unfold firstNamespace? at h
    split at h
    · obtain ⟨name, p, vs, rfl, -, hends, rfl⟩ := exists_of_readNamespace? h
      exact ⟨p, by simp, rfl, hends⟩
    · obtain ⟨p, hp, hstop⟩ := ih h
      exact ⟨p, List.mem_cons_of_mem _ hp, hstop⟩

/-- The token at the end of the namespace declaration. -/
theorem getElem?_stop {ts : List Token} {ns : NamespaceDecl} (h : namespaceDecl? ts = some ns) :
    ∃ t, ts[ns.stop]? = some t ∧ (t.kind = .semicolon ∨ t.kind = .lBrace) := by
  obtain ⟨p, hp, hstop, hends⟩ := stop_of_firstNamespace? h
  refine ⟨p.toToken, ?_, by simpa [Placed.endsDecl] using hends⟩
  rw [← hstop]
  exact getElem?_of_mem_placed hp

end PhpImports
