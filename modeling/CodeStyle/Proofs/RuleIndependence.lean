import CodeStyle.Config.Reading
import CodeStyle.Proofs.Cancellation
import CodeStyle.Proofs.ReportSelection
import CodeStyle.Proofs.SuppressionSplit

/-!
Rules do not interfere. A configuration that sets one rule in another way leaves the entries of all others
as they are and all rules known, so that no other rule finds, suppresses or reports anything else.
-/

namespace CodeStyle

theorem Reading.insertSorted_split {β : Type} {key : String} (value : β) {l : List (String × β)}
    (h : ∀ p ∈ l, p.1 ≠ key) :
    ∃ l₁ l₂, l = l₁ ++ l₂ ∧ insertSorted key value l = l₁ ++ (key, value) :: l₂ := by
  induction l with
  | nil => exact ⟨[], [], rfl, rfl⟩
  | cons p rest ih =>
    have hp : (key == p.1) = false := by simpa using (h p List.mem_cons_self).symm
    by_cases hlt : key < p.1
    · exact ⟨[], p :: rest, rfl, by simp [insertSorted, hlt]⟩
    · obtain ⟨l₁, l₂, hrest, hinsert⟩ := ih fun q hq ↦ h q (List.mem_cons_of_mem _ hq)
      refine ⟨p :: l₁, l₂, by rw [hrest, List.cons_append], ?_⟩
      simp [insertSorted, hlt, hp, hinsert]

namespace RuleEntry

variable {e : RuleEntry} {settings : List (String × RuleSetting)} {id : String}

/-- An entry after the setting of a rule, which may be another one. -/
def put (e : RuleEntry) (p : String × RuleSetting) : RuleEntry :=
  if e.rule.id == p.1 then e.apply p.2 else e

theorem put_of_ne {p : String × RuleSetting} (h : p.1 ≠ e.rule.id) : e.put p = e := by
  have hne : (e.rule.id == p.1) = false := by simpa using h.symm
  rw [put, hne]
  rfl

@[simp]
theorem rule_put (e : RuleEntry) (p : String × RuleSetting) : (e.put p).rule = e.rule := by
  unfold put
  split
  · exact rule_apply e p.2
  · rfl

@[simp]
theorem rule_puts (e : RuleEntry) (settings : List (String × RuleSetting)) :
    (settings.foldl put e).rule = e.rule := by
  induction settings generalizing e with
  | nil => rfl
  | cons p settings ih => exact (ih _).trans (rule_put e p)

theorem puts_of_ne (h : ∀ p ∈ settings, p.1 ≠ e.rule.id) : settings.foldl put e = e := by
  induction settings with
  | nil => rfl
  | cons p settings ih =>
    rw [List.foldl_cons, put_of_ne (h p List.mem_cons_self)]
    exact ih fun q hq ↦ h q (List.mem_cons_of_mem _ hq)

theorem puts_filter (h : e.rule.id ≠ id) :
    (settings.filter (·.1 != id)).foldl put e = settings.foldl put e := by
  induction settings generalizing e with
  | nil => rfl
  | cons p settings ih =>
    by_cases hp : p.1 = id
    · rw [List.filter_cons_of_neg (by simp [hp]), List.foldl_cons, put_of_ne (by rw [hp]; exact h.symm)]
      exact ih h
    · rw [List.filter_cons_of_pos (by simpa using hp), List.foldl_cons, List.foldl_cons]
      exact ih (by rwa [rule_put])

theorem enabled_puts {e' : RuleEntry} (hid : e.rule.id = e'.rule.id) (hon : e.enabled = e'.enabled) :
    (settings.foldl put e).enabled = (settings.foldl put e').enabled := by
  induction settings generalizing e e' with
  | nil => exact hon
  | cons p settings ih =>
    refine ih (by rw [rule_put, rule_put, hid]) ?_
    unfold put
    rw [hid]
    split
    · cases p.2 <;> rfl
    · exact hon

theorem puts_middle {before after : List (String × RuleSetting)} {setting : RuleSetting}
    (h : ∀ p ∈ before ++ after, p.1 ≠ e.rule.id) :
    (before ++ (e.rule.id, setting) :: after).foldl put e = e.apply setting := by
  rw [List.forall_mem_append] at h
  have hput : e.put (e.rule.id, setting) = e.apply setting := by simp [put]
  rw [List.foldl_append, List.foldl_cons, puts_of_ne h.1, hput]
  refine puts_of_ne fun p hp ↦ ?_
  rw [rule_apply]
  exact h.2 p hp

/-- A setting that is put in place of all others of its rule is the only one that counts for the rule, and
does not count for the rest. -/
theorem puts_insertSorted (e : RuleEntry) (id : String) (setting : RuleSetting)
    (settings : List (String × RuleSetting)) :
    (Reading.insertSorted id setting (settings.filter (·.1 != id))).foldl put e =
      if e.rule.id == id then e.apply setting else settings.foldl put e := by
  have hothers : ∀ p ∈ settings.filter (·.1 != id), p.1 ≠ id := by
    intro p hp
    simpa using (List.mem_filter.1 hp).2
  obtain ⟨l₁, l₂, hl, hinsert⟩ := Reading.insertSorted_split setting hothers
  rw [hinsert]
  by_cases hid : e.rule.id = id
  · subst hid
    rw [hl] at hothers
    rw [puts_middle hothers, beq_self_eq_true]
    rfl
  · have hne : (e.rule.id == id) = false := by simpa using hid
    rw [List.foldl_append, List.foldl_cons, put_of_ne (by rw [rule_puts]; exact Ne.symm hid), ← List.foldl_append, ← hl,
      puts_filter hid, hne]
    rfl

end RuleEntry

namespace RuleBook

variable {b : RuleBook} {id : String} {s : Severity}

theorem entries_applyAll (b : RuleBook) (settings : List (String × RuleSetting)) :
    (b.applyAll settings).entries = b.entries.map fun e ↦ settings.foldl RuleEntry.put e := by
  induction settings generalizing b with
  | nil => exact (List.map_id' _).symm
  | cons p settings ih =>
    refine (ih (b.apply p.1 p.2)).trans ?_
    rw [apply, List.map_map]
    rfl

/-- An entry as a rule starts out with it, with this setting, if it is of the rule with this id. -/
def revised (id : String) (setting : RuleSetting) (e : RuleEntry) : RuleEntry :=
  if e.rule.id == id then (RuleEntry.plain e.rule).apply setting else e

/-- The rules, with one of them set anew. -/
def revise (b : RuleBook) (id : String) (setting : RuleSetting) : RuleBook :=
  ⟨b.entries.map (revised id setting)⟩

@[simp]
theorem rule_revised (id : String) (setting : RuleSetting) (e : RuleEntry) :
    (revised id setting e).rule = e.rule := by
  unfold revised
  split
  · exact RuleEntry.rule_apply _ _
  · rfl

theorem applyAll_insertSorted (rules : List Rule) (id : String) (setting : RuleSetting)
    (settings : List (String × RuleSetting)) :
    (ofRules rules).applyAll (Reading.insertSorted id setting (settings.filter (·.1 != id))) =
      ((ofRules rules).applyAll settings).revise id setting := by
  have hentries : ((ofRules rules).applyAll
      (Reading.insertSorted id setting (settings.filter (·.1 != id)))).entries =
        (((ofRules rules).applyAll settings).revise id setting).entries := by
    rw [entries_applyAll, revise, entries_applyAll, ofRules, List.map_map, List.map_map, List.map_map]
    refine List.map_congr_left fun rule _ ↦ ?_
    simp only [Function.comp_apply, RuleEntry.puts_insertSorted, revised, RuleEntry.rule_puts]
    rfl
  exact congrArg RuleBook.mk hentries

theorem get?_revise (b : RuleBook) (id : String) (setting : RuleSetting) (k : String) :
    (b.revise id setting).get? k = (b.get? k).map (revised id setting) := by
  rw [get?, get?, revise, ← List.map_reverse, List.find?_map]
  simp only [Function.comp_def, rule_revised]

theorem knowsFilter_revise (b : RuleBook) (id : String) (setting : RuleSetting) (f : String) :
    (b.revise id setting).knowsFilter f = b.knowsFilter f := by
  rw [knowsFilter, knowsFilter, revise, List.any_map]
  simp only [Function.comp_def, rule_revised]

theorem enabled?_revise_off (b : RuleBook) (id k : String) :
    (b.revise id .off).enabled? k = (b.enabled? k).filter (·.rule.id != id) := by
  rw [enabled?, enabled?, get?_revise]
  cases b.get? k with
  | none => rfl
  | some e =>
    by_cases hid : e.rule.id = id
    · cases hon : e.enabled <;> simp [revised, hid, RuleEntry.apply, Option.filter, hon]
    · cases hon : e.enabled <;> simp [revised, hid, Option.filter, hon]

theorem evaluators_revise_off (b : RuleBook) (id : String) :
    (b.revise id .off).evaluators = b.evaluators.filter (·.rule.id != id) := by
  have hkeep : b.entries.filter ((fun e ↦ e.enabled && e.rule.check.isSome) ∘ revised id .off) =
      b.entries.filter fun e ↦ e.rule.id != id && (e.enabled && e.rule.check.isSome) := by
    refine List.filter_congr fun e _ ↦ ?_
    by_cases hid : e.rule.id = id
    · simp [revised, hid, RuleEntry.apply]
    · have hne : (e.rule.id != id) = true := by simpa using hid
      simp [revised, hid, hne]
  rw [evaluators, evaluators, revise, List.filter_map, List.filter_filter, hkeep]
  refine (List.map_congr_left fun e he ↦ ?_).trans (List.map_id' _)
  have hid := (Bool.and_eq_true_iff.1 (List.mem_filter.1 he).2).1
  simp [revised, bne_iff_ne.1 hid]

/-- An entry with another severity if it is of the rule with this id. -/
def relevel (id : String) (s : Severity) (e : RuleEntry) : RuleEntry :=
  if e.rule.id == id then { e with severity := s } else e

/-- Every entry of the rule with this id is on. -/
def On (b : RuleBook) (id : String) : Prop := ∀ e ∈ b.entries, e.rule.id = id → e.enabled = true

theorem on_of_isEnabled {rules : List Rule} {settings : List (String × RuleSetting)}
    (h : ((ofRules rules).applyAll settings).isEnabled id = true) :
    ((ofRules rules).applyAll settings).On id := by
  obtain ⟨e, he⟩ := isEnabled_iff.1 h
  obtain ⟨hget, hon⟩ := Option.filter_eq_some_iff.1 he
  have hmem := List.mem_reverse.1 (List.mem_of_find?_eq_some hget)
  have hid : e.rule.id = id := id_of_enabled he
  intro e' he' hid'
  -- whether an entry is on depends on its id alone
  rw [entries_applyAll, ofRules, List.map_map] at hmem he'
  obtain ⟨rule, -, rfl⟩ := List.mem_map.1 hmem
  obtain ⟨rule', -, rfl⟩ := List.mem_map.1 he'
  simp only [Function.comp_apply, RuleEntry.rule_puts] at hid hid' hon ⊢
  rw [← hon]
  exact RuleEntry.enabled_puts (hid'.trans hid.symm) rfl

theorem revised_level (hb : b.On id) {e : RuleEntry} (he : e ∈ b.entries) :
    revised id (.level s) e = relevel id s e := by
  by_cases hid : e.rule.id = id
  · simp [revised, relevel, hid, RuleEntry.apply, RuleEntry.plain, hb e he hid]
  · simp [revised, relevel, hid]

theorem enabled_relevel (id : String) (s : Severity) (e : RuleEntry) :
    (relevel id s e).enabled = e.enabled ∧ (relevel id s e).rule = e.rule := by
  unfold relevel
  split <;> exact ⟨rfl, rfl⟩

theorem enabled?_revise_level (hb : b.On id) (k : String) :
    (b.revise id (.level s)).enabled? k = (b.enabled? k).map (relevel id s) := by
  rw [enabled?, enabled?, get?_revise]
  cases hget : b.get? k with
  | none => rfl
  | some e =>
    have he : e ∈ b.entries := List.mem_reverse.1 (List.mem_of_find?_eq_some hget)
    rw [Option.map_some, revised_level hb he]
    cases hon : e.enabled <;> simp [Option.filter, hon, enabled_relevel]

theorem evaluators_revise_level (hb : b.On id) :
    (b.revise id (.level s)).evaluators = b.evaluators.map (relevel id s) := by
  have hentries : b.entries.map (revised id (.level s)) = b.entries.map (relevel id s) :=
    List.map_congr_left fun e he ↦ revised_level hb he
  rw [evaluators, evaluators, revise, hentries, List.filter_map]
  simp only [Function.comp_def, enabled_relevel]

end RuleBook

namespace Suppression

variable {b b' : RuleBook}

theorem resolve_congr (h : ∀ f, b.knowsFilter f = b'.knowsFilter f) (file : String) (ds : List Directive) :
    resolve b file ds = resolve b' file ds := by
  have hunknown : unknownFilters b = unknownFilters b' := by
    funext d
    simp only [unknownFilters, h]
  have hstep : step b file = step b' file := by
    funext p d
    simp only [step, hunknown]
  rw [resolve, resolve, hstep]

theorem diagnostics_revise_off (b : RuleBook) (id file : String) (errors : List SuppressionError) :
    diagnostics (b.revise id .off) file errors = (diagnostics b file errors).filter (·.ruleId != id) := by
  rw [diagnostics, diagnostics, List.filter_filterMap]
  refine List.filterMap_congr fun e _ ↦ ?_
  rw [RuleBook.enabled?_revise_off]
  cases b.enabled? e.fault.ruleId with
  | none => rfl
  | some entry => by_cases hid : entry.rule.id = id <;> simp [Option.filter, hid]

theorem diagnostics_revise_level {id : String} {s : Severity} (hb : b.On id) (file : String)
    (errors : List SuppressionError) :
    diagnostics (b.revise id (.level s)) file errors =
      (diagnostics b file errors).map (Diagnostic.relevel id s) := by
  rw [diagnostics, diagnostics, List.map_filterMap]
  refine List.filterMap_congr fun e _ ↦ ?_
  rw [RuleBook.enabled?_revise_level hb]
  cases b.enabled? e.fault.ruleId with
  | none => rfl
  | some entry =>
    by_cases hid : entry.rule.id = id <;> simp [RuleBook.relevel, Diagnostic.relevel, hid]

theorem split_filter (suppressions : List Suppression) (p : String → Bool) (raw : List Diagnostic) :
    split suppressions (raw.filter (p ·.ruleId)) =
      ((split suppressions raw).1.filter (p ·.ruleId),
        (split suppressions raw).2.filter (p ·.diagnostic.ruleId)) := by
  have hactive : (raw.filter (p ·.ruleId)).filter (fun d ↦ !suppressions.any (·.covers d)) =
      (raw.filter fun d ↦ !suppressions.any (·.covers d)).filter (p ·.ruleId) := by
    rw [List.filter_filter, List.filter_filter]
    exact List.filter_congr fun d _ ↦ Bool.and_comm _ _
  have hsuppressed : (raw.filter (p ·.ruleId)).filterMap
        (fun d ↦ (suppressions.find? (·.covers d)).map (⟨d, ·⟩ : Suppression → Suppressed)) =
      (raw.filterMap fun d ↦ (suppressions.find? (·.covers d)).map (⟨d, ·⟩)).filter
        (p ·.diagnostic.ruleId) := by
    rw [List.filterMap_filter, List.filter_filterMap]
    refine List.filterMap_congr fun d _ ↦ ?_
    cases suppressions.find? (·.covers d) with
    | none => cases p d.ruleId <;> rfl
    | some first => cases hp : p d.ruleId <;> simp [Option.filter, hp]
  rw [split, split, hactive, hsuppressed]

theorem split_relevel (suppressions : List Suppression) (id : String) (s : Severity) (raw : List Diagnostic) :
    split suppressions (raw.map (Diagnostic.relevel id s)) =
      ((split suppressions raw).1.map (Diagnostic.relevel id s),
        (split suppressions raw).2.map (Suppressed.relevel id s)) := by
  have hg := Diagnostic.relevel_harmless id s
  have hcovers (x : Suppression) (d : Diagnostic) : x.covers (d.relevel id s) = x.covers d :=
    covers_congr x (hg.file d) (hg.finding d)
  rw [split, split, List.filter_map, List.filterMap_map, List.map_filterMap]
  simp only [Function.comp_def, hcovers, Option.map_map]
  rfl

end Suppression

/-- Every setting is what its name says. -/
theorem RuleSetting.parse?_name (setting : RuleSetting) : parse? setting.name = some setting := by
  cases setting with
  | off => rfl
  | level s => cases s <;> rfl

namespace Config

variable {rules : List (String × RuleValue)} {settings : List (String × RuleSetting)} {id : String}
  {value : RuleValue} {setting : RuleSetting}

/-- A configuration that says this of a rule, in place of what it said of it. -/
def withRule (c : Config) (id : String) (value : RuleValue) : Config :=
  { c with rules := Reading.insertSorted id value (c.rules.filter (·.1 != id)) }

theorem settingOf_name {rule : Rule} (hr : rule ∈ Rule.builtin) (setting : RuleSetting) :
    settingOf rule.id (.setting setting.name) = .ok setting := by
  have hfound : (Rule.builtin.find? (·.id == rule.id)).isSome = true :=
    List.find?_isSome.2 ⟨rule, hr, beq_self_eq_true _⟩
  obtain ⟨found, hfound⟩ := Option.isSome_iff_exists.1 hfound
  rw [settingOf, hfound]
  dsimp only
  rw [RuleSetting.parse?_name]

theorem settingsOf_cons : settingsOf ((id, value) :: rules) = .ok settings ↔
    ∃ first rest, settingOf id value = .ok first ∧ settingsOf rules = .ok rest ∧
      settings = (id, first) :: rest := by
  rw [settingsOf]
  cases settingOf id value with
  | error e => simp [bind, Except.bind]
  | ok first =>
    cases settingsOf rules with
    | error e => simp [bind, Except.bind]
    | ok rest => simp [bind, Except.bind, pure, Except.pure, eq_comm]

theorem settingsOf_filter (p : String → Bool) (h : settingsOf rules = .ok settings) :
    settingsOf (rules.filter (p ·.1)) = .ok (settings.filter (p ·.1)) := by
  induction rules generalizing settings with
  | nil =>
    cases h
    rfl
  | cons q rules ih =>
    obtain ⟨first, rest, hfirst, hrest, rfl⟩ := settingsOf_cons.1 h
    cases hp : p q.1
    · simpa [hp] using ih hrest
    · simpa [hp] using settingsOf_cons.2 ⟨first, _, hfirst, ih hrest, rfl⟩

theorem settingsOf_insertSorted (hv : settingOf id value = .ok setting)
    (h : settingsOf rules = .ok settings) :
    settingsOf (Reading.insertSorted id value rules) = .ok (Reading.insertSorted id setting settings) := by
  induction rules generalizing settings with
  | nil =>
    cases h
    exact settingsOf_cons.2 ⟨setting, [], hv, rfl, rfl⟩
  | cons q rules ih =>
    obtain ⟨first, rest, hfirst, hrest, rfl⟩ := settingsOf_cons.1 h
    simp only [Reading.insertSorted]
    split
    · exact settingsOf_cons.2 ⟨setting, _, hv, h, rfl⟩
    · split
      · exact settingsOf_cons.2 ⟨setting, _, hv, hrest, rfl⟩
      · exact settingsOf_cons.2 ⟨first, _, hfirst, ih hrest, rfl⟩

end Config

namespace Checker

variable {config : Config} {c : Checker} {id : String} {value : RuleValue} {setting : RuleSetting}

/-- What the parts of a configuration give to its checker. -/
theorem ofConfig_eq_ok : ofConfig config = .ok c ↔
    ∃ settings directives, config.ruleSettings = .ok settings ∧
      config.suppression.directiveSyntax = .ok directives ∧
      c = ⟨RuleBook.builtin.applyAll settings, config.limits, directives, config.jobs,
        config.parallelRules⟩ := by
  unfold ofConfig Config.ruleBook
  cases config.ruleSettings with
  | error e => simp [Except.map, bind, Except.bind]
  | ok settings =>
    cases config.suppression.directiveSyntax with
    | error e => simp [Except.map, bind, Except.bind]
    | ok directives => simp [Except.map, bind, Except.bind, pure, Except.pure, eq_comm]

theorem ofConfig_withRule (hc : ofConfig config = .ok c) (hv : Config.settingOf id value = .ok setting) :
    ofConfig (config.withRule id value) = .ok { c with book := c.book.revise id setting } := by
  obtain ⟨settings, directives, hsettings, hdirectives, rfl⟩ := ofConfig_eq_ok.1 hc
  refine ofConfig_eq_ok.2 ⟨Reading.insertSorted id setting (settings.filter (·.1 != id)), directives, ?_,
    hdirectives, ?_⟩
  · exact Config.settingsOf_insertSorted hv (Config.settingsOf_filter (· != id) hsettings)
  · dsimp only [Config.withRule]
    rw [RuleBook.builtin, RuleBook.applyAll_insertSorted]

theorem ofConfig_on (hc : ofConfig config = .ok c) (hon : c.book.isEnabled id = true) : c.book.On id := by
  obtain ⟨settings, directives, -, -, rfl⟩ := ofConfig_eq_ok.1 hc
  exact RuleBook.on_of_isEnabled hon

/-- What a rule reports of a file when it is not told to stop. -/
def foundBy (limits : Limits) (source : Source) (e : RuleEntry) : List Diagnostic :=
  (outcome e { file := Analysis.of source, limits }).findings.map (e.diagnostic source)

theorem raw_uncancelled (hc : ofConfig config = .ok c) (source : Source) :
    c.raw source (c.outcomes (.constant false) (Analysis.of source)) =
      c.book.evaluators.flatMap (foundBy c.limits source) := by
  rw [raw, outcomes_uncancelled, List.flatMap_map]
  refine List.flatMap_congr fun e he ↦ ?_
  have hmem : (e, outcome e { file := Analysis.of source, limits := c.limits }) ∈
      c.outcomes (.constant false) (Analysis.of source) := by
    rw [outcomes_uncancelled]
    exact List.mem_map_of_mem he
  have hfailure : (outcome e { file := Analysis.of source, limits := c.limits }).failure = none :=
    (outcomes_sound hc hmem).failure
  simp only [reported, hfailure]
  exact List.append_nil _

theorem foundBy_filter (limits : Limits) (source : Source) (id : String) (entries : List RuleEntry) :
    (entries.filter (·.rule.id != id)).flatMap (foundBy limits source) =
      (entries.flatMap (foundBy limits source)).filter (·.ruleId != id) := by
  have hid (e : RuleEntry) : ∀ d ∈ foundBy limits source e, d.ruleId = e.rule.id := by
    intro d hd
    obtain ⟨f, -, rfl⟩ := List.mem_map.1 hd
    rfl
  induction entries with
  | nil => rfl
  | cons e entries ih =>
    rw [List.flatMap_cons, List.filter_append, ← ih]
    by_cases he : e.rule.id = id
    · have hnone : (foundBy limits source e).filter (·.ruleId != id) = [] := by
        rw [List.filter_eq_nil_iff]
        intro d hd
        simp [hid e d hd, he]
      rw [List.filter_cons_of_neg (by simp [he]), hnone, List.nil_append]
    · have hall : (foundBy limits source e).filter (·.ruleId != id) = foundBy limits source e := by
        rw [List.filter_eq_self]
        intro d hd
        simp [hid e d hd, he]
      rw [List.filter_cons_of_pos (by simp [he]), hall, List.flatMap_cons]

theorem foundBy_relevel (limits : Limits) (source : Source) (id : String) (s : Severity) (e : RuleEntry) :
    foundBy limits source (RuleBook.relevel id s e) =
      (foundBy limits source e).map (Diagnostic.relevel id s) := by
  have hrule := (RuleBook.enabled_relevel id s e).2
  rw [foundBy, foundBy, List.map_map, outcome, outcome, hrule]
  refine List.map_congr_left fun f _ ↦ ?_
  by_cases hid : e.rule.id = id
  · simp [RuleBook.relevel, Diagnostic.relevel, RuleEntry.diagnostic, Finding.report, hid]
  · simp [RuleBook.relevel, Diagnostic.relevel, RuleEntry.diagnostic, Finding.report, hid]

/-- The report of a file when nothing is cancelled. -/
def fullReport (c : Checker) (source : Source) : FileReport :=
  c.report source (c.outcomes (.constant false) (Analysis.of source))

theorem check_uncancelled (hc : ofConfig config = .ok c) (source : Source) :
    (c.check false source).1 = some (c.fullReport source) :=
  (checkPolled_eq hc : (c.checkPolled (.constant false) source).1 = _)

/-- A report is made of what the rules found, the suppressions of the file and its wrong directives. -/
theorem fullReport_eq (hc : ofConfig config = .ok c) (source : Source) :
    c.fullReport source =
      let found := c.book.evaluators.flatMap (foundBy c.limits source)
      let (suppressions, errors) := Suppression.resolve c.book source.path (c.directives.directives source)
      let (active, suppressed) := Suppression.split suppressions found
      FileReport.of source.path source.encoding source.lineCount
        (active ++ Suppression.diagnostics c.book source.path errors) suppressed := by
  rw [← raw_uncancelled hc]
  rfl

theorem fullReport_revise {config' : Config} (hc : ofConfig config = .ok c) (hon : c.book.isEnabled id = true)
    (hc' : ofConfig config' = .ok { c with book := c.book.revise id setting }) (source : Source) :
    fullReport { c with book := c.book.revise id setting } source =
      (c.fullReport source).under id setting := by
  have hresolve := Suppression.resolve_congr (c.book.knowsFilter_revise id setting) source.path
    (c.directives.directives source)
  rw [fullReport_eq hc, fullReport_eq hc']
  cases setting with
  | off =>
    simp only [hresolve, RuleBook.evaluators_revise_off, foundBy_filter, Suppression.split_filter _ (· != id),
      Suppression.diagnostics_revise_off, ← List.filter_append]
    exact FileReport.of_without ..
  | level s =>
    have hb := ofConfig_on hc hon
    simp only [hresolve, RuleBook.evaluators_revise_level hb, List.flatMap_map, foundBy_relevel,
      ← List.map_flatMap, Suppression.split_relevel, Suppression.diagnostics_revise_level hb,
      ← List.map_append]
    exact FileReport.of_relevel ..

end Checker

end CodeStyle
