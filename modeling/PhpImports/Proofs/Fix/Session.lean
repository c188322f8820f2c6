import PhpImports.Fix.Session
import PhpImports.Proofs.Fix.Candidate

/-!
# PhpImports — sessions and their errors

A command that fails leaves no trace, although it works on the fixer or the tokens in place.
Options are read into a configuration of their own, which takes the place of the old one only if
all of them can be set; and a fix asks for the prefix before it puts in a token. So after any run
of commands, however many of them have failed, the configuration is the one that was set last.

## Results

* `Config.setAll_eq_error_iff`    — options are refused for their first entry at fault.
* `Fixer.configure_on`            — what new options leave of a fixer.
* `Session.step_configure`, `Session.step_fix` — the commands that can fail.
* `Session.step_eq_self_of_error` — one command that fails.
* `Session.config_step`           — the configuration after one command.
* `Session.config_run`            — the configuration after any run of commands.
* `Session.run_spec`              — errors and configurations over a whole session.
-/

namespace PhpImports

-- ---------------------------------------------------------------------------
-- Options at fault
-- ---------------------------------------------------------------------------

/-- An entry cannot be set: its name is not that of the option, or its value is no text. -/
def IsAtFault (e : String × OptionValue) : Prop :=
  e.1 ≠ prefixOption ∨ ∀ text, e.2 ≠ .string text

/-- What is reported of an entry at fault: its name, if there is no such option, and otherwise the
type of its value. -/
inductive Reports : String × OptionValue → ConfigError → Prop
  | unknown {name : String} (value : OptionValue) : name ≠ prefixOption →
      Reports (name, value) (.unknown name)
  | wrongType {value : OptionValue} : (∀ text, value ≠ .string text) →
      Reports (prefixOption, value) (.wrongType prefixOption "string" value.typeName)

theorem exists_reports_iff {e : String × OptionValue} : (∃ x, Reports e x) ↔ IsAtFault e := by
  constructor
  · rintro ⟨x, h⟩
    cases h with
    | unknown value hname => exact .inl hname
    | wrongType hvalue => exact .inr hvalue
  · obtain ⟨name, value⟩ := e
    intro h
    by_cases hname : name = prefixOption
    · subst hname
      exact ⟨_, .wrongType (h.resolve_left (by simp))⟩
    · exact ⟨_, .unknown value hname⟩

theorem Reports.unique {e : String × OptionValue} {x y : ConfigError} (hx : Reports e x)
    (hy : Reports e y) : x = y := by
  cases hx with
  | unknown value hname =>
    cases hy with
    | unknown => rfl
    | wrongType => exact absurd rfl hname
  | wrongType =>
    cases hy with
    | unknown _ hname => exact absurd rfl hname
    | wrongType => rfl

namespace Config

/-- An entry is set whatever the configuration was, unless it is at fault. -/
theorem set_cases (c : Config) (name : String) (value : OptionValue) :
    (¬ IsAtFault (name, value) ∧ ∃ c', c.set name value = .ok c') ∨
      ∃ x, Reports (name, value) x ∧ c.set name value = .error x := by
  unfold set
  split
  · next hname =>
    subst hname
    cases value with
    | string text =>
      refine .inl ⟨?_, _, rfl⟩
      rintro (hname | hvalue)
      · exact hname rfl
      · exact hvalue text rfl
    | _ => exact .inr ⟨_, .wrongType (by simp), rfl⟩
  · next hname => exact .inr ⟨_, .unknown value hname, rfl⟩

/-- Options are refused for the first entry at fault, and for that one only. -/
theorem setAll_eq_error_iff {c : Config} {es : List (String × OptionValue)} {x : ConfigError} :
    c.setAll es = .error x ↔
      ∃ before e after, es = before ++ e :: after ∧ (∀ b ∈ before, ¬ IsAtFault b) ∧
        Reports e x := by
  induction es generalizing c with
  | nil => simp [setAll]
  | cons e es ih =>
    rw [setAll]
    rcases c.set_cases e.1 e.2 with ⟨hset, c', hc'⟩ | ⟨y, hreports, hy⟩
    · -- the entry can be set, so the one that is reported comes behind it
      rw [hc']
      dsimp only
      rw [ih]
      constructor
      · rintro ⟨before, f, after, rfl, hbefore, hf⟩
        exact ⟨e :: before, f, after, rfl, List.forall_mem_cons.2 ⟨hset, hbefore⟩, hf⟩
      · rintro ⟨before, f, after, heq, hbefore, hf⟩
        cases before with
        | nil =>
          rw [List.nil_append, List.cons.injEq] at heq
          rw [← heq.1] at hf
          exact absurd (exists_reports_iff.1 ⟨x, hf⟩) hset
        | cons b before =>
          rw [List.cons_append, List.cons.injEq] at heq
          exact ⟨before, f, after, heq.2, (List.forall_mem_cons.1 hbefore).2, hf⟩
    · rw [hy]
      dsimp only
      rw [Except.error.injEq]
      constructor
      · rintro rfl
        exact ⟨[], e, es, rfl, nofun, hreports⟩
      · rintro ⟨before, f, after, heq, hbefore, hf⟩
        cases before with
        | nil =>
          rw [List.nil_append, List.cons.injEq] at heq
          rw [← heq.1] at hf
          exact hreports.unique hf
        | cons b before =>
          rw [List.cons_append, List.cons.injEq] at heq
          have hfault := exists_reports_iff.1 ⟨y, hreports⟩
          rw [heq.1] at hfault
          exact absurd hfault (List.forall_mem_cons.1 hbefore).1

theorem not_isAtFault_of_setAll {c c' : Config} {es : List (String × OptionValue)}
    (h : c.setAll es = .ok c') : ∀ e ∈ es, ¬ IsAtFault e := by
  induction es generalizing c with
  | nil => nofun
  | cons e es ih =>
    rw [setAll] at h
    rcases c.set_cases e.1 e.2 with ⟨hset, d, hd⟩ | ⟨x, -, hx⟩
    · rw [hd] at h
      exact List.forall_mem_cons.2 ⟨hset, ih h⟩
    · rw [hx] at h
      simp at h

/-- Options are refused exactly if some entry is at fault. -/
theorem exists_resolve_eq_error_iff {o : Options} :
    (∃ x, resolve o = .error x) ↔ ∃ e ∈ o.entries, IsAtFault e := by
  constructor
  · rintro ⟨x, hx⟩
    obtain ⟨before, e, after, heq, -, he⟩ := setAll_eq_error_iff.1 hx
    exact ⟨e, by simp [heq], exists_reports_iff.1 ⟨x, he⟩⟩
  · rintro ⟨e, he, hfault⟩
    cases hresolve : resolve o with
    | error x => exact ⟨x, rfl⟩
    | ok c => exact absurd hfault (not_isAtFault_of_setAll hresolve e he)

end Config

-- ---------------------------------------------------------------------------
-- One command
-- ---------------------------------------------------------------------------

/-- The configuration that a command sets, if it sets one. -/
def Command.config? : Command → Option Config
  | .configure options => (Config.resolve options).toOption
  | _ => none

/-- Options are read before the fixer is touched. -/
theorem Fixer.configure_on (o : Options) (f : Fixer) :
    (configure o).on f =
      match Config.resolve o with
      | .ok config => (.ok (), { f with config })
      | .error e => (.error e, f) := by
  unfold configure
  cases Config.resolve o with
  | ok config => rfl
  | error e => rfl

namespace Session

theorem step_configure (s : Session) (o : Options) :
    s.step (.configure o) =
      match Config.resolve o with
      | .ok config => ({ s with fixer := { s.fixer with config } }, .ok [])
      | .error e => (s, .error e) := by
  rw [step, Fixer.configure_on]
  cases Config.resolve o with
  | ok config => rfl
  | error e => rfl

theorem step_fix (s : Session) :
    s.step .fix =
      match s.fixer.config.requirePrefix with
      | .ok part =>
        ({ s with tokens := (fixTokens part s.tokens).tokens },
          .ok (fixTokens part s.tokens).inserted)
      | .error e => (s, .error e) := by
  rw [step]
  cases h : s.fixer.config.requirePrefix with
  | ok part => rw [Fixer.fixInPlace_on_of_ok h]
  | error e => rw [Fixer.fixInPlace_on_of_error h]

/-- A command that fails changes nothing. -/
theorem step_eq_self_of_error {s : Session} {c : Command} {x : ConfigError}
    (h : (s.step c).2 = .error x) : (s.step c).1 = s := by
  cases c with
  | configure options =>
    rw [step_configure] at h ⊢
    cases hresolve : Config.resolve options with
    | ok config => simp [hresolve] at h
    | error e => rfl
  | fix =>
    rw [step_fix] at h ⊢
    cases hrequire : s.fixer.config.requirePrefix with
    | ok part => simp [hrequire] at h
    | error e => rfl
  | _ => simp [step] at h

/-- The configuration is set by a command, or stays. -/
theorem config_step (s : Session) (c : Command) :
    (s.step c).1.fixer.config = c.config?.getD s.fixer.config := by
  cases c with
  | configure options =>
    rw [step_configure, Command.config?]
    cases Config.resolve options <;> rfl
  | fix =>
    rw [step_fix]
    cases s.fixer.config.requirePrefix <;> rfl
  | _ => rfl

/-- New options fail exactly if they are refused, with the same error. -/
theorem step_configure_eq_error_iff {s : Session} {o : Options} {x : ConfigError} :
    (s.step (.configure o)).2 = .error x ↔ Config.resolve o = .error x := by
  rw [step_configure]
  cases Config.resolve o <;> simp

/-- A fix fails exactly if the prefix is not set, or blank. -/
theorem step_fix_eq_error_iff {s : Session} :
    (∃ x, (s.step .fix).2 = .error x) ↔
      s.fixer.config.namespacePrefix = none ∨
        ∃ text, s.fixer.config.namespacePrefix = some text ∧
          ∀ c ∈ text.toList, isBlank c = true := by
  rw [step_fix]
  cases hset : s.fixer.config.namespacePrefix with
  | none => simp [Config.requirePrefix_eq_error (c := s.fixer.config) (by simp [hset])]
  | some text =>
    simp only [reduceCtorEq, false_or, Option.some.injEq, exists_eq_left', ← isBlankText_iff]
    cases hblank : isBlankText text with
    | true => simp [Config.requirePrefix_eq_error (c := s.fixer.config) (by simp [hset, hblank])]
    | false => simp [Config.requirePrefix_eq_ok hset hblank]

-- ---------------------------------------------------------------------------
-- Runs of commands
-- ---------------------------------------------------------------------------

theorem run_cons (s : Session) (c : Command) (cs : List Command) :
    s.run (c :: cs) = (((s.step c).1.run cs).1, (s.step c).2 :: ((s.step c).1.run cs).2) :=
  rfl

/-- The configuration after a run is the last that one of its commands has set. -/
theorem config_run (s : Session) (cs : List Command) :
    (s.run cs).1.fixer.config = (cs.filterMap Command.config?).getLast?.getD s.fixer.config := by
  induction cs generalizing s with
  | nil => rfl
  | cons c cs ih =>
    rw [run_cons, ih, config_step, List.filterMap_cons]
    cases c.config? with
    | none => rfl
    | some config => simp [List.getLast?_cons]

/-- One command of a run, in the session that the commands before it have left. -/
theorem run_at {s : Session} {cs : List Command} {i : Nat} {c : Command} (h : cs[i]? = some c) :
    (s.run cs).2[i]? = some ((s.run (cs.take i)).1.step c).2 ∧
      (s.run (cs.take (i + 1))).1 = ((s.run (cs.take i)).1.step c).1 := by
  induction cs generalizing s i with
  | nil => simp at h
  | cons d cs ih =>
    cases i with
    | zero =>
      rw [List.getElem?_cons_zero, Option.some.injEq] at h
      subst h
      exact ⟨rfl, rfl⟩
    | succ i =>
      rw [List.getElem?_cons_succ] at h
      rw [List.take_succ_cons, List.take_succ_cons, run_cons, run_cons, run_cons,
        List.getElem?_cons_succ]
      exact ih h

/-- There is a result for each command of a run. -/
theorem length_run (s : Session) (cs : List Command) : (s.run cs).2.length = cs.length := by
  induction cs generalizing s with
  | nil => rfl
  | cons c cs ih => rw [run_cons, List.length_cons, ih, List.length_cons]

/-- Over a whole session, a command that fails leaves the session as it was, and the configuration
is the one that was set last. A fix fails exactly if the prefix that is set then is missing or
blank, and new options exactly if one of them cannot be set: the first such is reported. -/
theorem run_spec (s : Session) (commands : List Command) :
    (s.run commands).2.length = commands.length ∧
    (∀ (i : Nat) (x : ConfigError), (s.run commands).2[i]? = some (.error x) →
      (s.run (commands.take (i + 1))).1 = (s.run (commands.take i)).1) ∧
    (s.run commands).1.fixer.config =
      (commands.filterMap Command.config?).getLast?.getD s.fixer.config ∧
    (∀ i : Nat, commands[i]? = some .fix →
      ((∃ x, (s.run commands).2[i]? = some (.error x)) ↔
        (s.run (commands.take i)).1.fixer.config.namespacePrefix = none ∨
          ∃ text, (s.run (commands.take i)).1.fixer.config.namespacePrefix = some text ∧
            ∀ c ∈ text.toList, isBlank c = true)) ∧
    (∀ (i : Nat) (o : Options), commands[i]? = some (.configure o) → ∀ x : ConfigError,
      ((s.run commands).2[i]? = some (.error x) ↔ Config.resolve o = .error x)) ∧
    (∀ o : Options, (∃ x, Config.resolve o = .error x) ↔ ∃ e ∈ o.entries, IsAtFault e) ∧
    (∀ (o : Options) (x : ConfigError), Config.resolve o = .error x ↔
      ∃ before e after, o.entries = before ++ e :: after ∧ (∀ b ∈ before, ¬ IsAtFault b) ∧
        Reports e x) := by
  refine ⟨length_run s commands, ?_, config_run s commands, ?_, ?_,
    fun o => Config.exists_resolve_eq_error_iff, fun o x => Config.setAll_eq_error_iff⟩
  · intro i x hx
    have hlt : i < commands.length := by
      rw [← length_run s commands]
      exact (List.getElem?_eq_some_iff.1 hx).1
    obtain ⟨hresult, hsession⟩ := run_at (s := s) (List.getElem?_eq_getElem hlt)
    rw [hresult, Option.some.injEq] at hx
    rw [hsession, step_eq_self_of_error hx]
  · intro i hi
    rw [(run_at hi).1]
    simp only [Option.some.injEq]
    exact step_fix_eq_error_iff
  · intro i o hi x
    rw [(run_at hi).1, Option.some.injEq]
    exact step_configure_eq_error_iff

/-- Commands of which some fail, for each of the reasons there are. -/
def refusedCommands : List Command :=
  [.fix, .configure ⟨[("x", .null), (prefixOption, .int 3)]⟩,
    .configure ⟨[(prefixOption, .string "T\\")]⟩, .configure ⟨[(prefixOption, .list [])]⟩, .fix]

theorem run_spec_refusedCommands :
    (run ⟨{}, lackingUnit⟩ refusedCommands).2 =
        [.error (.missing prefixOption), .error (.unknown "x"), .ok [],
          .error (.wrongType prefixOption "string" "array"), .ok ["B"]] ∧
      (run ⟨{}, lackingUnit⟩ (refusedCommands.take 1)).1 = ⟨{}, lackingUnit⟩ ∧
      (run ⟨{}, lackingUnit⟩ (refusedCommands.take 4)).1 =
        (run ⟨{}, lackingUnit⟩ (refusedCommands.take 3)).1 ∧
      (run ⟨{}, lackingUnit⟩ refusedCommands).1.fixer.config = ⟨some "T\\"⟩ ∧
      (run ⟨{}, lackingUnit⟩ refusedCommands).1.tokens.source =
        "<?php namespace T\\A;\nuse A\\B;new B;" := by
  have hresults : (run ⟨{}, lackingUnit⟩ refusedCommands).2 =
      [.error (.missing prefixOption), .error (.unknown "x"), .ok [],
        .error (.wrongType prefixOption "string" "array"), .ok ["B"]] := by
    rfl
  obtain ⟨-, herror, hconfig, -⟩ := run_spec ⟨{}, lackingUnit⟩ refusedCommands
  exact ⟨hresults, herror 0 _ (by rw [hresults]; rfl), herror 3 _ (by rw [hresults]; rfl), hconfig,
    by decide⟩

end Session

end PhpImports
