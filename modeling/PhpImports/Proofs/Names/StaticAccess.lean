import PhpImports.Proofs.Names.Occurrence

/-!
# PhpImports — static access is found twice

Two scans look for the class before a `::`. The scan for instantiations goes through the tokens and
stops at each `new`, to look for a name behind it, and at each `::`, to look for one before it; the
scan for static access stops at each `::` only, and has a rule of its own for what stands there.
Here both are written down position by position, each with its own rule. The rules agree whatever
stands before the `::`, so the second scan only finds what the first has found before.

The lists of names follow the identifiers, the scans follow the tokens at which they stop. The
orders agree although one name is reported before it is reached and the other behind: the invariant
`names_eq_reports` keeps apart the one name that is ahead of the one list or the other.

## Results

* `names_eq_reports` — names in the order of the tokens that they are reported at.
* `scopeRule_eq_accessRule` — the two rules agree.
* `TokenSeq.filterMap_range_eq_reports` — a scan over positions sees the tokens without trivia.
* `TokenSeq.instantiations_eq_scan`, `TokenSeq.staticAccesses_eq_scan` — the scans by position.
* `usedNames_without_staticAccesses` — the second scan adds nothing.
-/

namespace PhpImports

-- ---------------------------------------------------------------------------
-- Names next to a cut
-- ---------------------------------------------------------------------------

/-- The text of a token if it is a name in a context, between neighbours of the given kinds. -/
def nameIn? (context : Mention → Bool) (before : Option Kind) (t : Token) (after : Option Kind) :
    Option String :=
  if t.kind = .identifier ∧ isReserved t.text = false ∧ context ⟨before, t.text, after⟩ = true then
    some t.text
  else none

/-- The name directly before a cut. -/
def nameBefore? (context : Mention → Bool) (us vs : List Token) : Option String :=
  us.getLast?.bind fun t => nameIn? context (lastKind? us.dropLast) t (firstKind? vs)

/-- The name directly behind a cut. -/
def nameBehind? (context : Mention → Bool) (us vs : List Token) : Option String :=
  vs.head?.bind fun t => nameIn? context (lastKind? us) t (firstKind? vs.tail)

section Cuts

variable {context : Mention → Bool} {t : Token}

theorem nameIn?_eq_none {before after : Option Kind}
    (h : ¬context ⟨before, t.text, after⟩ = true) : nameIn? context before t after = none := by
  rw [nameIn?, if_neg]
  rintro ⟨-, -, hcontext⟩
  exact h hcontext

theorem lastKind?_concat (us : List Token) (t : Token) : lastKind? (us ++ [t]) = some t.kind := by
  rw [lastKind?_append_cons]
  rfl

/-- A name is the last before one cut and the first behind another. -/
theorem nameBefore?_concat (context : Mention → Bool) (us vs : List Token) (t : Token) :
    nameBefore? context (us ++ [t]) vs = nameIn? context (lastKind? us) t (firstKind? vs) := by
  rw [nameBefore?, List.getLast?_concat, List.dropLast_concat]
  rfl

theorem nameBehind?_cons (context : Mention → Bool) (us vs : List Token) (t : Token) :
    nameBehind? context us (t :: vs) = nameIn? context (lastKind? us) t (firstKind? vs) := rfl

theorem namesAfter_cons (context : Mention → Bool) (before : Option Kind) (t : Token)
    (ts : List Token) :
    namesAfter context before (t :: ts) =
      (nameIn? context before t (firstKind? ts)).toList ++ namesAfter context (some t.kind) ts := by
  by_cases ht : t.kind = .identifier
  · rw [namesAfter, mentionsAfter, if_pos ht, List.filter_cons, nameIn?]
    by_cases hname : isReserved t.text = false ∧ context ⟨before, t.text, firstKind? ts⟩ = true
    · rw [if_pos (by simpa [firstKind?] using hname.symm), if_pos ⟨ht, hname⟩]
      rfl
    · rw [if_neg fun h => hname (by simpa [firstKind?, and_comm] using h),
        if_neg fun h => hname h.2]
      rfl
  · rw [namesAfter_cons_of_ne _ ht, nameIn?, if_neg fun h => ht h.1]
    rfl

end Cuts

-- ---------------------------------------------------------------------------
-- The order of the reports
-- ---------------------------------------------------------------------------

/-- A context of names behind `new`, none of which stands before a `::`. -/
def IsBehindNew (context : Mention → Bool) : Prop :=
  ∀ m, context m = true → m.before = some (.keyword .newKw) ∧ m.after ≠ some .doubleColon

theorem isBehindNew_isInstantiated : IsBehindNew Mention.isInstantiated := by
  intro m h
  obtain ⟨hbefore, hafter⟩ := Mention.isInstantiated_iff.1 h
  refine ⟨hbefore, ?_⟩
  rcases hafter with hafter | hafter <;> rw [hafter] <;> nofun

/-- What is reported at a token: the name before it if that is accessed with this token, and the
name behind it if that is in the context `context`. -/
def reportsAt (context : Mention → Bool) (us : List Token) (t : Token) (ts : List Token) :
    List String :=
  (nameBefore? Mention.isAccessed us (t :: ts)).toList ++
    (nameBehind? context (us ++ [t]) ts).toList

/-- What is reported at the tokens that follow the tokens `us`. -/
def reportsAfter (context : Mention → Bool) : List Token → List Token → List String
  | _, [] => []
  | us, t :: ts => reportsAt context us t ts ++ reportsAfter context (us ++ [t]) ts

section Reports

variable {context : Mention → Bool}

/-- A name is instantiated or accessed, and not both. -/
theorem nameIn?_or (h : IsBehindNew context) (before : Option Kind) (t : Token)
    (after : Option Kind) :
    (nameIn? (fun m => context m || m.isAccessed) before t after).toList =
      (nameIn? context before t after).toList ++
        (nameIn? Mention.isAccessed before t after).toList := by
  by_cases hcontext : context ⟨before, t.text, after⟩ = true
  · have hother : Mention.isAccessed ⟨before, t.text, after⟩ = false := by
      rw [← Bool.not_eq_true, Mention.isAccessed_iff]
      exact fun haccessed => (h _ hcontext).2 haccessed.1
    simp [nameIn?, hcontext, hother]
  · simp [nameIn?, hcontext]

theorem nameBehind?_eq_none (h : IsBehindNew context) {us : List Token}
    (hus : lastKind? us ≠ some (.keyword .newKw)) (vs : List Token) :
    nameBehind? context us vs = none := by
  rw [nameBehind?, Option.bind_eq_none_iff]
  intro t _
  exact nameIn?_eq_none fun hcontext => hus (h _ hcontext).1

theorem nameBefore?_eq_none {vs : List Token} (hvs : firstKind? vs ≠ some .doubleColon)
    (us : List Token) : nameBefore? Mention.isAccessed us vs = none := by
  rw [nameBefore?, Option.bind_eq_none_iff]
  intro t _
  exact nameIn?_eq_none fun haccessed => hvs (Mention.isAccessed_iff.1 haccessed).1

/-- Names are reported at `new` and at `::` only. -/
theorem reportsAt_eq (h : IsBehindNew context) (us : List Token) (t : Token) (ts : List Token) :
    reportsAt context us t ts =
      if t.kind = .keyword .newKw then (nameBehind? context (us ++ [t]) ts).toList
      else if t.kind = .doubleColon then (nameBefore? Mention.isAccessed us (t :: ts)).toList
      else [] := by
  have hbefore (ht : t.kind ≠ .doubleColon) :
      nameBefore? Mention.isAccessed us (t :: ts) = none := by
    refine nameBefore?_eq_none ?_ us
    exact mt Option.some.inj ht
  have hbehind (ht : t.kind ≠ .keyword .newKw) : nameBehind? context (us ++ [t]) ts = none := by
    refine nameBehind?_eq_none h ?_ ts
    rw [lastKind?_concat]
    exact mt Option.some.inj ht
  rw [reportsAt]
  split
  · next hnew =>
    rw [hbefore (by rw [hnew]; nofun)]
    rfl
  · next hnew =>
    rw [hbehind hnew]
    split
    · exact List.append_nil _
    · next hcolons =>
      rw [hbefore hcolons]
      rfl

/-- Of the names on the two sides of a cut one at most is there: what stands before the cut is an
identifier or a `new`. -/
theorem nameBefore?_append_comm (h : IsBehindNew context) (us vs : List Token) :
    (nameBefore? Mention.isAccessed us vs).toList ++ (nameBehind? context us vs).toList =
      (nameBehind? context us vs).toList ++ (nameBefore? Mention.isAccessed us vs).toList := by
  by_cases hus : lastKind? us = some (.keyword .newKw)
  · have hnone : nameBefore? Mention.isAccessed us vs = none := by
      obtain ⟨u, hlast, hu⟩ := Option.map_eq_some_iff.1 hus
      rw [nameBefore?, hlast, Option.bind_some, nameIn?, if_neg]
      rintro ⟨hkind, -⟩
      rw [hu] at hkind
      cases hkind
    rw [hnone]
    exact (List.append_nil _).symm
  · rw [nameBehind?_eq_none h hus]
    exact List.append_nil _

/-- Names in the order of the tokens that they are reported at. At a cut, the name before it may be
listed and not yet reported, and the name behind it reported and not yet listed. -/
theorem names_eq_reports (h : IsBehindNew context) (us ts : List Token) :
    (nameBefore? Mention.isAccessed us ts).toList ++
        namesAfter (fun m => context m || m.isAccessed) (lastKind? us) ts =
      (nameBehind? context us ts).toList ++ reportsAfter context us ts := by
  induction ts generalizing us with
  | nil =>
    rw [nameBefore?_eq_none (by nofun)]
    rfl
  | cons t ts ih =>
    have hlater := ih (us ++ [t])
    rw [nameBefore?_concat, lastKind?_concat] at hlater
    have hcomm := nameBefore?_append_comm h us (t :: ts)
    rw [nameBehind?_cons] at hcomm ⊢
    rw [namesAfter_cons, nameIn?_or h, List.append_assoc, hlater, ← List.append_assoc, hcomm,
      reportsAfter, reportsAt]
    simp only [List.append_assoc]

theorem namesWhere_eq_reports (h : IsBehindNew context) (ts : List Token) :
    namesWhere (fun m => context m || m.isAccessed) ts = reportsAfter context [] ts := by
  have hreports := names_eq_reports h [] ts
  rw [nameBehind?_eq_none h (by nofun)] at hreports
  exact hreports

end Reports

-- ---------------------------------------------------------------------------
-- The two scans, position by position
-- ---------------------------------------------------------------------------

/-- The name behind a `new`, if arguments or the end of the statement follow it. -/
def newRule (t : Token) (after : Option Kind) : Option String :=
  if t.kind ≠ .identifier ∨ isReserved t.text = true then none
  else if after = some .lParen ∨ after = some .semicolon then some t.text
  else none

/-- The name before a `::`, for the scan for instantiations: it turns away `static`, and reserved
and qualified names. -/
def scopeRule (before : Option Kind) (t : Token) : Option String :=
  match t.kind with
  | .keyword .staticKw => none
  | .identifier =>
    if isReserved t.text = false ∧ before ≠ some .nsSeparator then some t.text else none
  | _ => none

/-- The name before a `::`, for the scan for static access: it turns away `static` and variables,
and reserved and qualified names. -/
def accessRule (before : Option Kind) (t : Token) : Option String :=
  let accepted : Bool := match t.kind with
    | .keyword .staticKw | .variable => false
    | .identifier => !isReserved t.text && before ≠ some .nsSeparator
    | _ => false
  if accepted then some t.text else none

theorem newRule_eq (t : Token) (after : Option Kind) :
    newRule t after = nameIn? Mention.isInstantiated (some (.keyword .newKw)) t after := by
  simp only [newRule, nameIn?, Mention.isInstantiated_iff, true_and]
  by_cases ht : t.kind = .identifier
  · cases isReserved t.text <;> simp [ht]
  · simp [ht]

theorem scopeRule_eq (before : Option Kind) (t : Token) :
    scopeRule before t = nameIn? Mention.isAccessed before t (some .doubleColon) := by
  simp only [scopeRule, nameIn?, Mention.isAccessed_iff, true_and]
  cases t.kind with
  | identifier => simp only [true_and]
  | keyword w => cases w <;> rfl
  | _ => rfl

/-- The two rules agree whatever stands before the `::`. -/
theorem scopeRule_eq_accessRule : scopeRule = accessRule := by
  funext before t
  rw [scopeRule, accessRule]
  cases t.kind with
  | identifier => simp
  | keyword w => cases w <;> rfl
  | _ => rfl

namespace TokenSeq

variable {s : TokenSeq}

/-- What a rule makes of the last token before position `i` that is not trivia, and of the kind
before that. -/
def ruleBefore? (s : TokenSeq) (rule : Option Kind → Token → Option String) (i : Nat) :
    Option String :=
  (s.prevMeaningful? i).bind fun k => s.tokens[k]?.bind fun t => rule (s.kindBefore? k) t

/-- What a rule makes of the first token behind position `i` that is not trivia, and of the kind
behind that. -/
def ruleBehind? (s : TokenSeq) (rule : Token → Option Kind → Option String) (i : Nat) :
    Option String :=
  (s.nextMeaningful? i).bind fun k => s.tokens[k]?.bind fun t => rule t (s.kindAfter? k)

/-- What the scan for instantiations reports at position `i`. -/
def instantiationAt? (s : TokenSeq) (i : Nat) : Option String :=
  match s.kindAt? i with
  | some (.keyword .newKw) => s.ruleBehind? newRule i
  | some .doubleColon => s.ruleBefore? scopeRule i
  | _ => none

/-- What the scan for static access reports at position `i`. -/
def staticAccessAt? (s : TokenSeq) (i : Nat) : Option String :=
  if s.kindAt? i = some .doubleColon then s.ruleBefore? accessRule i else none

/-- Behind a `new` the scan for instantiations finds the name that is instantiated. -/
theorem ruleBehind?_newRule {us : List Token} (h : lastKind? us = some (.keyword .newKw))
    (s : TokenSeq) (i : Nat) :
    s.ruleBehind? newRule i =
      nameBehind? Mention.isInstantiated us (meaningful (s.tokens.drop (i + 1))) := by
  rw [ruleBehind?]
  cases hnext : s.nextMeaningful? i with
  | none =>
    rw [meaningful_drop_of_nextMeaningful?_none hnext]
    rfl
  | some k =>
    obtain ⟨t, hget, -⟩ := (Option.any_eq_true _ _).1 (next?_eq_some_iff.1 hnext).2.1
    rw [meaningful_drop_eq_cons_iff.2 ⟨k, hnext, hget, rfl⟩, nameBehind?_cons, h, Option.bind_some,
      hget, Option.bind_some, newRule_eq, kindAfter?_eq]
    rfl

/-- Before a `::` it finds the name that is accessed. -/
theorem ruleBefore?_scopeRule {vs : List Token} (h : firstKind? vs = some .doubleColon)
    (s : TokenSeq) (i : Nat) :
    s.ruleBefore? scopeRule i =
      nameBefore? Mention.isAccessed (meaningful (s.tokens.take i)) vs := by
  rw [ruleBefore?]
  cases hprev : s.prevMeaningful? i with
  | none =>
    rw [meaningful_take_of_prevMeaningful?_none hprev]
    rfl
  | some k =>
    obtain ⟨t, hget, -⟩ := (Option.any_eq_true _ _).1 (prev?_eq_some_iff.1 hprev).2.1
    rw [meaningful_take_of_prevMeaningful? hprev hget, nameBefore?_concat, h, Option.bind_some,
      hget, Option.bind_some, scopeRule_eq, kindBefore?_eq]
    rfl

-- ---------------------------------------------------------------------------
-- The lists by position
-- ---------------------------------------------------------------------------

section Positions

variable {context : Mention → Bool} (h : IsBehindNew context) {f : Nat → Option String}
  (hf : ∀ i t, s.tokens[i]? = some t → (f i).toList =
    reportsAt context (meaningful (s.tokens.take i)) t (meaningful (s.tokens.drop (i + 1))))

include h hf

/-- A scan that reports at each position what the names next to it give, from some position on. -/
theorem filterMap_range'_eq_reports {pre post : List Token} (htokens : s.tokens = pre ++ post) :
    (List.range' pre.length post.length).filterMap f =
      reportsAfter context (meaningful pre) (meaningful post) := by
  induction post generalizing pre with
  | nil => rfl
  | cons t post ih =>
    have hcons : (List.range' pre.length (t :: post).length).filterMap f =
        (f pre.length).toList ++ (List.range' (pre.length + 1) post.length).filterMap f := by
      rw [List.length_cons, List.range'_succ, List.filterMap_cons]
      cases f pre.length <;> rfl
    have hhead := hf pre.length t (by simp [htokens])
    rw [htokens, List.take_left, ← List.drop_drop, List.drop_left, List.drop_one,
      List.tail_cons] at hhead
    have hrest := @ih (pre ++ [t]) (by rw [htokens, List.append_assoc]; rfl)
    rw [List.length_append, List.length_singleton, meaningful_append] at hrest
    rw [hcons, hhead, hrest]
    by_cases ht : t.isMeaningful = true
    · rw [meaningful_cons_of_pos ht, meaningful_cons_of_pos ht, reportsAfter]
      rfl
    · -- nothing is reported at trivia
      have hnew : t.kind ≠ .keyword .newKw := fun hk => ht (by rw [Token.isMeaningful, hk]; rfl)
      have hcolons : t.kind ≠ .doubleColon := fun hk => ht (by rw [Token.isMeaningful, hk]; rfl)
      rw [reportsAt_eq h, if_neg hnew, if_neg hcolons, meaningful_cons_of_neg ht,
        meaningful_cons_of_neg ht]
      simp [meaningful]

theorem filterMap_range_eq_reports :
    (List.range s.length).filterMap f = reportsAfter context [] (meaningful s.tokens) := by
  rw [List.range_eq_range']
  exact filterMap_range'_eq_reports h hf (List.nil_append _).symm

end Positions

theorem instantiations_eq_scan (s : TokenSeq) :
    instantiations s.tokens = (List.range s.length).filterMap s.instantiationAt? := by
  rw [instantiations, namesWhere_eq_reports isBehindNew_isInstantiated]
  refine (filterMap_range_eq_reports isBehindNew_isInstantiated fun i t hget => ?_).symm
  have hkind : s.kindAt? i = some t.kind := by rw [kindAt?, hget]; rfl
  rw [reportsAt_eq isBehindNew_isInstantiated, instantiationAt?, hkind]
  split
  · next hnew =>
    rw [Option.some.injEq] at hnew
    rw [if_pos hnew, ruleBehind?_newRule]
    rw [lastKind?_concat, hnew]
  · next hcolons =>
    rw [Option.some.injEq] at hcolons
    rw [if_neg (by simp [hcolons]), if_pos hcolons, ruleBefore?_scopeRule]
    rw [← hcolons]
    rfl
  · next hnew hcolons =>
    rw [if_neg fun hk => hnew (congrArg some hk), if_neg fun hk => hcolons (congrArg some hk)]
    rfl

theorem staticAccesses_eq_scan (s : TokenSeq) :
    staticAccesses s.tokens = (List.range s.length).filterMap s.staticAccessAt? := by
  have hnever : IsBehindNew fun _ => false := fun _ hm => absurd hm Bool.false_ne_true
  have hreports := namesWhere_eq_reports hnever (meaningful s.tokens)
  simp only [Bool.false_or] at hreports
  rw [staticAccesses, hreports]
  refine (filterMap_range_eq_reports hnever fun i t hget => ?_).symm
  have hkind : s.kindAt? i = some t.kind := by rw [kindAt?, hget]; rfl
  rw [reportsAt_eq hnever, staticAccessAt?, hkind, ← scopeRule_eq_accessRule]
  by_cases hcolons : t.kind = .doubleColon
  · rw [if_pos (congrArg some hcolons), if_neg (by simp [hcolons]), if_pos hcolons,
      ruleBefore?_scopeRule]
    rw [← hcolons]
    rfl
  · have hnone (us vs : List Token) : nameBehind? (fun _ => false) us vs = none := by
      rw [nameBehind?, Option.bind_eq_none_iff]
      exact fun u _ => nameIn?_eq_none Bool.false_ne_true
    rw [if_neg fun hk => hcolons (Option.some.inj hk), if_neg hcolons, hnone, Option.toList_none,
      ite_self]

/-- What the scan for instantiations reports at the `::` is what the scan for static access
reports. -/
theorem staticAccesses_eq_filter (s : TokenSeq) :
    staticAccesses s.tokens =
      ((List.range s.length).filter fun i => s.kindAt? i = some .doubleColon).filterMap
        s.instantiationAt? := by
  rw [staticAccesses_eq_scan, List.filterMap_filter]
  congr 1
  funext i
  rw [staticAccessAt?, ← scopeRule_eq_accessRule]
  simp only [decide_eq_true_eq]
  split
  · next hcolons => rw [instantiationAt?, hcolons]
  · rfl

theorem staticAccesses_sublist (s : TokenSeq) :
    (staticAccesses s.tokens).Sublist (instantiations s.tokens) := by
  rw [staticAccesses_eq_filter, instantiations_eq_scan]
  exact List.filter_sublist.filterMap _

end TokenSeq

/-- Names that come again in a list behind the first add nothing to the names in order of their
first appearance. -/
theorem eraseDups_append_of_subset {as bs : List String} (h : bs ⊆ as) (cs : List String) :
    (as ++ bs ++ cs).eraseDups = (as ++ cs).eraseDups := by
  have hbs : bs.removeAll as = [] := by
    rw [List.removeAll, List.filter_eq_nil_iff]
    intro b hb
    simp [h hb]
  have hcs : cs.removeAll (as ++ bs) = cs.removeAll as := by
    rw [List.removeAll, List.removeAll]
    refine List.filter_congr fun c _ => ?_
    have hmem : c ∈ as ++ bs ↔ c ∈ as := by
      rw [List.mem_append]
      exact ⟨fun hc => hc.elim id fun hb => h hb, .inl⟩
    simp only [List.elem_eq_mem, hmem]
  rw [List.eraseDups_append, hcs, List.eraseDups_append, hbs, List.eraseDups_nil, List.append_nil,
    List.eraseDups_append]

/-- The scan for static access is redundant: it reports what the scan for instantiations reports at
the `::`, in this order and as often, and the used names are the same, in the same order, without
it. -/
theorem usedNames_without_staticAccesses (s : TokenSeq) :
    instantiations s.tokens = (List.range s.length).filterMap s.instantiationAt? ∧
    staticAccesses s.tokens = (List.range s.length).filterMap s.staticAccessAt? ∧
    staticAccesses s.tokens =
      ((List.range s.length).filter fun i => s.kindAt? i = some .doubleColon).filterMap
        s.instantiationAt? ∧
    (staticAccesses s.tokens).Sublist (instantiations s.tokens) ∧
    usedNames s.tokens =
      (instantiations s.tokens ++ caughtTypes s.tokens ++ signatureTypes s.tokens).eraseDups := by
  refine ⟨s.instantiations_eq_scan, s.staticAccesses_eq_scan, s.staticAccesses_eq_filter,
    s.staticAccesses_sublist, ?_⟩
  rw [usedNames, List.append_assoc, eraseDups_append_of_subset s.staticAccesses_sublist.subset,
    ← List.append_assoc]

example :
    let ts : List Token :=
      [⟨.identifier, "A"⟩, ⟨.doubleColon, "::"⟩, ⟨.keyword .newKw, "new"⟩, ⟨.identifier, "B"⟩,
        ⟨.semicolon, ";"⟩, ⟨.keyword .staticKw, "static"⟩, ⟨.doubleColon, "::"⟩,
        ⟨.variable, "$c"⟩, ⟨.doubleColon, "::"⟩, ⟨.identifier, "A"⟩, ⟨.doubleColon, "::"⟩]
    instantiations ts = ["A", "B", "A"] ∧ staticAccesses ts = ["A", "A"] := by
  decide +kernel

end PhpImports
