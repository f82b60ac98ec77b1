import CodeStyle.Proofs.BuiltinRules
import CodeStyle.Proofs.Reports

/-!
Reported spans. Under every configuration, whatever a check tells of a file is told at the exact place
of the bytes it is about, and no span has to be cut to the file.
-/

namespace CodeStyle

theorem DirectiveSyntax.exact_directive (y : DirectiveSyntax) (s : Source) :
    ∀ d ∈ y.directives s, s.Exact d.span := by
  intro d hd
  obtain ⟨f, -, hd⟩ := List.mem_flatMap.1 hd
  obtain ⟨m, -, hd⟩ := List.mem_filterMap.1 hd
  obtain ⟨kind, -, rfl⟩ := Option.map_eq_some_iff.1 hd
  exact Source.exact_spanFor s _ _

namespace Checker

variable {config : Config} {c : Checker} {polls : Polls} {source : Source}

/-- A configuration sets the built-in rules and adds none. -/
theorem ofConfig_rules (hc : ofConfig config = .ok c) : c.book.entries.map RuleEntry.rule = Rule.builtin := by
  unfold ofConfig Config.ruleBook at hc
  cases hs : config.ruleSettings with
  | error e => simp [hs, Except.map, bind, Except.bind] at hc
  | ok settings =>
    cases hd : config.suppression.directiveSyntax with
    | error e => simp [hs, hd, Except.map, bind, Except.bind] at hc
    | ok y =>
      simp only [hs, hd, Except.map, bind, Except.bind, pure, Except.pure, Except.ok.injEq] at hc
      rw [← hc]
      exact (RuleBook.map_rule_applyAll _ _).trans (RuleBook.map_rule_ofRules _)

theorem evaluated_sublist (c : Checker) (polls : Polls) :
    ((c.evaluated polls).map Prod.fst).Sublist c.book.evaluators := by
  have hnumbered : (c.evaluated polls).Sublist c.book.evaluators.zipIdx := by
    unfold evaluated
    dsimp only
    split
    · exact .refl _
    · exact List.takeWhile_sublist _
  have h := hnumbered.map Prod.fst
  rwa [List.zipIdx_map_fst] at h

theorem evaluated_mem {e : RuleEntry} {k : Nat} (h : (e, k) ∈ c.evaluated polls) :
    e ∈ c.book.evaluators :=
  (evaluated_sublist c polls).subset (List.mem_map_of_mem (f := Prod.fst) h)

/-- An outcome is what a built-in rule says of the file. -/
theorem outcomes_cases (hc : ofConfig config = .ok c) {p : RuleEntry × Outcome}
    (hp : p ∈ c.outcomes polls (Analysis.of source)) :
    p.2 = .clean ∨ ∃ r check, r.file = Analysis.of source ∧ p.1.rule ∈ Rule.builtin ∧
      p.1.rule.check = some check ∧ p.2 = check r := by
  obtain ⟨⟨e, k⟩, he, rfl⟩ := List.mem_map.1 hp
  have hrule : e.rule ∈ Rule.builtin := by
    rw [← ofConfig_rules hc]
    exact List.mem_map_of_mem (List.mem_filter.1 (evaluated_mem he)).1
  dsimp only [outcome]
  cases hcheck : e.rule.check with
  | none => exact .inl rfl
  | some check => exact .inr ⟨_, check, rfl, hrule, rfl, rfl⟩

theorem outcomes_sound (hc : ofConfig config = .ok c) {p : RuleEntry × Outcome}
    (hp : p ∈ c.outcomes polls (Analysis.of source)) : p.2.Sound source := by
  rcases outcomes_cases hc hp with h | ⟨r, check, hr, hrule, hcheck, h⟩ <;> rw [h]
  · exact Outcome.clean_sound
  · exact Rule.builtin_soundAt hr p.1.rule hrule check hcheck

/-- A check gives a report unless it is cancelled from outside. -/
theorem checkPolled_eq (hc : ofConfig config = .ok c) :
    (c.checkPolled polls source).1 =
      if polls.start || polls.finish then none
      else some (c.report source (c.outcomes polls (Analysis.of source))) := by
  have hcancels : (c.outcomes polls (Analysis.of source)).any (·.2.cancels) = false := by
    rw [List.any_eq_false]
    intro p hp
    simp [(outcomes_sound hc hp).cancels]
  unfold checkPolled
  cases polls.start <;> simp [hcancels]

theorem report_exact (hc : ofConfig config = .ok c) {d : Diagnostic}
    (hd : d ∈ (c.report source (c.outcomes polls (Analysis.of source))).everything) :
    source.Exact d.span := by
  cases report_origin hd with
  | @found e o f he hf =>
    have hspan := (outcomes_sound hc he).exact f hf
    rw [RuleEntry.diagnostic, Finding.report, hspan.clamp]
    exact hspan
  | failed he hf _ =>
    rw [(outcomes_sound hc he).failure] at hf
    cases hf
  | misdirected he hspan _ =>
    rw [hspan]
    exact Suppression.resolve_at _ _ (c.directives.exact_directive source) _ he

end Checker

/-- A span of a file whose two ends lie in the file, in order, at the lines and columns that the line
breaks before them give. -/
structure Source.Locates (s : Source) (span : Span) : Prop where
  lineTable : span = s.spanFor span.startByte span.endByte
  ordered : span.startByte ≤ span.endByte
  inside : span.endByte ≤ s.length
  start : (⟨span.startLine, span.startCol⟩ : Point) = s.placeOf span.startByte
  stop : (⟨span.endLine, span.endCol⟩ : Point) = s.placeOf span.endByte
  lines : 1 ≤ span.startLine ∧ 1 ≤ span.endLine
  columns : 1 ≤ span.startCol ∧ 1 ≤ span.endCol

theorem Source.Exact.locates {s : Source} {span : Span} (h : s.Exact span) : s.Locates span := by
  obtain ⟨hle, hlen, heq⟩ := Source.exact_iff.1 h
  have hstart : (⟨span.startLine, span.startCol⟩ : Point) = s.placeOf span.startByte := by
    rw [heq]
    rfl
  have hstop : (⟨span.endLine, span.endCol⟩ : Point) = s.placeOf span.endByte := by
    rw [heq]
    rfl
  have hone (offset : Nat) : 1 ≤ (s.placeOf offset).line ∧ 1 ≤ (s.placeOf offset).column :=
    ⟨Nat.le_add_right 1 _, Nat.le_add_right 1 _⟩
  have hs := hone span.startByte
  have he := hone span.endByte
  rw [← hstart] at hs
  rw [← hstop] at he
  exact ⟨h, hle, hlen, hstart, hstop, ⟨hs.1, he.1⟩, hs.2, he.2⟩

/-- A check that is not cancelled gives a report, and each diagnostic of it, whether it is suppressed or
not, is located by the file. What the rules find lies in the file before it is reported. -/
theorem Checker.report_located {config : Config} {c : Checker} (hc : Checker.ofConfig config = .ok c)
    (polls : Polls) (source : Source) :
    (∀ p ∈ c.outcomes polls (Analysis.of source),
      p.2.failure = none ∧ ∀ f ∈ p.2.findings, f.span.within source.length = true) ∧
    if polls.start || polls.finish then (c.checkPolled polls source).1 = none
    else ∃ report, (c.checkPolled polls source).1 = some report ∧
      (∀ d ∈ report.diagnostics, source.Locates d.span) ∧
      ∀ x ∈ report.suppressed, source.Locates x.diagnostic.span := by
  refine ⟨fun p hp ↦ ⟨(outcomes_sound hc hp).failure, fun f hf ↦ ?_⟩, ?_⟩
  · exact ((outcomes_sound hc hp).exact f hf).within
  · rw [checkPolled_eq hc]
    split
    · rfl
    · refine ⟨_, rfl, fun d hd ↦ ?_, fun x hx ↦ ?_⟩
      · exact (report_exact hc (List.mem_append_left _ hd)).locates
      · exact (report_exact hc (List.mem_append_right _ (List.mem_map_of_mem hx))).locates

/-- A tab, an open quote and no line break at the end. -/
theorem Checker.report_located_tab :
    ∃ c report, Checker.ofConfig { rules := [("WHITESPACE.TAB", .setting "Error")] } = .ok c ∧
      (∃ p ∈ c.outcomes (.constant false) (Analysis.of ⟨"a.c", [9, 34]⟩), p.2.findings ≠ []) ∧
      (c.checkPolled (.constant false) ⟨"a.c", [9, 34]⟩).1 = some report ∧
      (∀ d ∈ report.diagnostics, Source.Locates ⟨"a.c", [9, 34]⟩ d.span) ∧
      ∀ x ∈ report.suppressed, Source.Locates ⟨"a.c", [9, 34]⟩ x.diagnostic.span := by
  have hc : Checker.ofConfig { rules := [("WHITESPACE.TAB", .setting "Error")] } = .ok _ := rfl
  obtain ⟨report, hreport, hd, hx⟩ := (Checker.report_located hc (.constant false) ⟨"a.c", [9, 34]⟩).2
  refine ⟨_, report, hc, ?_, hreport, hd, hx⟩
  -- the rule on the line break at the end of a file has number 32
  refine ⟨_, List.mem_map.2 ⟨(_, 32), List.mem_of_getElem? (i := 32) rfl, rfl⟩, ?_⟩
  decide

end CodeStyle
