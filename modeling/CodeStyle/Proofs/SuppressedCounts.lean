import CodeStyle.Proofs.CanonicalReports
import CodeStyle.Proofs.DistinctFindings
import Mathlib.Data.List.Dedup

/-!
How often a suppressed finding is listed. The findings of a report are freed of repetitions, but what is
suppressed is listed as often as the rules find it. So suppressed findings and those of a report make up
the findings of the same file without directives only where each suppressed finding is counted once. All
but a few rules find nothing twice, and their findings are.
-/

namespace CodeStyle

namespace Suppression

variable {suppressions : List Suppression} {raw : List Diagnostic} {path : String}

theorem map_split_snd (suppressions : List Suppression) (raw : List Diagnostic) :
    (split suppressions raw).2.map (·.diagnostic) =
      raw.filter fun d ↦ suppressions.any (·.covers d) := by
  rw [split, List.map_filterMap, ← List.filterMap_eq_filter]
  refine List.filterMap_congr fun d _ ↦ ?_
  cases hfind : suppressions.find? (·.covers d) with
  | none =>
    have hany : suppressions.any (·.covers d) = false := by simpa using List.find?_eq_none.1 hfind
    simp [Option.guard, hany]
  | some s =>
    have hcovers : s.covers d = true := by simpa using List.find?_some hfind
    have hany : suppressions.any (·.covers d) = true :=
      List.any_eq_true.2 ⟨s, List.mem_of_find?_eq_some hfind, hcovers⟩
    simp [Option.guard, hany]

/-- Of what is the same finding, all is covered or nothing. -/
theorem count_covered (hfile : ∀ d ∈ raw, d.file = path) {f : String × Span}
    (hf : f ∈ (raw.filter fun d ↦ suppressions.any (·.covers d)).map Diagnostic.finding) :
    ((raw.filter fun d ↦ suppressions.any (·.covers d)).map Diagnostic.finding).count f =
      (raw.map Diagnostic.finding).count f := by
  obtain ⟨d, hd, rfl⟩ := List.mem_map.1 hf
  obtain ⟨hd, hcovered⟩ := List.mem_filter.1 hd
  obtain ⟨s, hs, hcovers⟩ := List.any_eq_true.1 hcovered
  simp only [List.count, List.countP_map, List.countP_filter]
  refine List.countP_congr fun x hx ↦ ?_
  simp only [Function.comp_apply, Bool.and_eq_true, beq_iff_eq, and_iff_left_iff_imp]
  intro hsame
  have hx : s.covers x = true := by
    rw [covers_congr s ((hfile x hx).trans (hfile d hd).symm) hsame]
    exact hcovers
  exact List.any_eq_true.2 ⟨s, hs, hx⟩

end Suppression

namespace FileReport

variable {path : String} {encoding : Encoding} {lines : Nat} {active raw : List Diagnostic}
  {suppressions : List Suppression} {errors : List SuppressionError} {book : RuleBook} {r : FileReport}

/-- The rules and places of what is suppressed. -/
def suppressedFindings (r : FileReport) : List (String × Span) := r.suppressed.map (·.diagnostic.finding)

/-- The findings of a report that do not tell of a wrong directive. -/
def ofRules (r : FileReport) : List Diagnostic := r.diagnostics.filter (!·.ofDirective)

theorem suppressedFindings_perm :
    (FileReport.of path encoding lines active (Suppression.split suppressions raw).2).suppressedFindings.Perm
      ((raw.filter fun d ↦ suppressions.any (·.covers d)).map Diagnostic.finding) := by
  rw [← Suppression.map_split_snd, List.map_map]
  exact (List.mergeSort_perm _ _).map _

theorem count_suppressedFindings (hfile : ∀ d ∈ raw, d.file = path) {f : String × Span}
    (hf : f ∈ (FileReport.of path encoding lines active
      (Suppression.split suppressions raw).2).suppressedFindings) :
    (FileReport.of path encoding lines active
      (Suppression.split suppressions raw).2).suppressedFindings.count f =
        (raw.map Diagnostic.finding).count f := by
  rw [suppressedFindings_perm.count_eq]
  exact Suppression.count_covered hfile (suppressedFindings_perm.mem_iff.1 hf)

/-- Findings that are split are those of the report and those that are suppressed, each once. -/
theorem Splits.perm (h : r.Splits book raw suppressions errors)
    (hnodup : (r.diagnostics.map Diagnostic.finding).Nodup) {plain : List (String × Span)}
    (hplain : plain.Nodup) (hmem : ∀ f, f ∈ plain ↔ f ∈ raw.map Diagnostic.finding) :
    (r.suppressedFindings.dedup ++ r.ofRules.map Diagnostic.finding).Perm plain := by
  have hrules : (r.ofRules.map Diagnostic.finding).Nodup :=
    hnodup.sublist (List.filter_sublist.map Diagnostic.finding)
  have hdisjoint : ∀ f ∈ r.suppressedFindings.dedup, ∀ g ∈ r.ofRules.map Diagnostic.finding, f ≠ g := by
    intro f hf g hg heq
    obtain ⟨x, hx, rfl⟩ := List.mem_map.1 (List.mem_dedup.1 hf)
    obtain ⟨d, hd, rfl⟩ := List.mem_map.1 hg
    obtain ⟨hd, hrule⟩ := List.mem_filter.1 hd
    exact h.disjoint d hd (by simpa using hrule) x hx heq.symm
  refine (List.perm_ext_iff_of_nodup ?_ hplain).2 fun f ↦ ?_
  · exact List.nodup_append.2 ⟨List.nodup_dedup _, hrules, hdisjoint⟩
  · rw [hmem, h.complete, List.mem_append, List.mem_dedup, or_comm]
    rfl

/-- How the suppressed findings of a report are counted, against a report of the same file without directives
and all that its rules found. -/
structure Counts (r plain : FileReport) (found : List (String × Span)) : Prop where
  listed : ∀ f ∈ r.suppressedFindings, r.suppressedFindings.count f = found.count f
  single : ∀ f ∈ r.suppressedFindings, f.1 ∉ Rule.repeating → r.suppressedFindings.count f = 1
  once : r.suppressedFindings.dedup.length + r.ofRules.length = plain.diagnostics.length

theorem Counts.total_iff {plain : FileReport} {found : List (String × Span)} (h : r.Counts plain found) :
    (Checker.runReport [some r] false).summary.suppressed + r.ofRules.length = plain.diagnostics.length ↔
      r.suppressedFindings.Nodup := by
  have htotal : (Checker.runReport [some r] false).summary.suppressed = r.suppressedFindings.length := by
    simp [Checker.runReport, Summary.of, suppressedFindings]
  rw [htotal, ← h.once, Nat.add_right_cancel_iff]
  constructor
  · intro hlength
    rw [← List.dedup_eq_self]
    exact (List.dedup_sublist _).eq_of_length hlength.symm
  · intro hnodup
    rw [hnodup.dedup]

end FileReport

namespace Checker

variable {config : Config} {c : Checker}

theorem checkPolled_directives (c : Checker) (y : DirectiveSyntax) (polls : Polls) (source : Source) :
    ({ c with directives := y }.checkPolled polls source).1 =
      (c.checkPolled polls source).1.map fun _ ↦
        { c with directives := y }.report source (c.outcomes polls (Analysis.of source)) := by
  have houtcomes : { c with directives := y }.outcomes polls = c.outcomes polls := rfl
  simp only [checkPolled, houtcomes]
  cases polls.start with
  | true => rfl
  | false => cases polls.finish || (c.outcomes polls (Analysis.of source)).any (·.2.cancels) <;> rfl

theorem report_undirected (c : Checker) {y : DirectiveSyntax} {source : Source} (hy : y.directives source = [])
    (outcomes : List (RuleEntry × Outcome)) :
    ({ c with directives := y }.report source outcomes).diagnostics =
      Diagnostic.aggregate (c.raw source outcomes) := by
  have hresolve : Suppression.resolve c.book source.path [] = ([], []) := by simp [Suppression.resolve]
  have hactive : { c with directives := y }.active source outcomes = c.raw source outcomes := by
    have hraw : { c with directives := y }.raw source outcomes = c.raw source outcomes := rfl
    simp only [active, hy, hresolve, hraw, Suppression.split, Suppression.diagnostics]
    simp
  exact congrArg Diagnostic.aggregate hactive

/-- The rules find nothing but at places of the file, so what they report is what they find. -/
theorem map_finding_raw (hc : ofConfig config = .ok c) (polls : Polls) (source : Source) :
    (c.raw source (c.outcomes polls (Analysis.of source))).map Diagnostic.finding =
      (c.outcomes polls (Analysis.of source)).flatMap fun (e, o) ↦
        o.findings.map fun f ↦ (e.rule.id, f.span) := by
  rw [raw, List.map_flatMap]
  refine List.flatMap_congr fun p hp ↦ ?_
  have hsound := outcomes_sound hc hp
  obtain ⟨e, o⟩ := p
  have hreported : c.reported source e o = o.findings.map (e.diagnostic source) := by
    rw [reported, hsound.failure]
    exact List.append_nil _
  dsimp only
  rw [hreported, List.map_map]
  refine List.map_congr_left fun f hf ↦ ?_
  rw [Function.comp_apply, RuleEntry.diagnostic, Finding.report, (hsound.exact f hf).clamp]
  rfl

theorem raw_exact (hc : ofConfig config = .ok c) (polls : Polls) (source : Source) :
    ∀ d ∈ c.raw source (c.outcomes polls (Analysis.of source)), source.Exact d.span := by
  intro d hd
  have hfinding := List.mem_map_of_mem (f := Diagnostic.finding) hd
  rw [map_finding_raw hc] at hfinding
  obtain ⟨p, hp, hfinding⟩ := List.mem_flatMap.1 hfinding
  obtain ⟨f, hf, heq⟩ := List.mem_map.1 hfinding
  have hspan : f.span = d.span := congrArg Prod.snd heq
  rw [← hspan]
  exact (outcomes_sound hc hp).exact f hf

theorem outcomes_ids_nodup (hc : ofConfig config = .ok c) (polls : Polls) (file : Analysis) :
    ((c.outcomes polls file).map fun p ↦ p.1.rule.id).Nodup := by
  have hevaluated := (evaluated_sublist c polls).trans List.filter_sublist
  have h := (ofConfig_ids_nodup hc).sublist (hevaluated.map fun e ↦ e.rule.id)
  rw [List.map_map] at h
  rw [outcomes, List.map_map]
  exact h

theorem outcomes_apart (hc : ofConfig config = .ok c) {polls : Polls} {source : Source} {p : RuleEntry × Outcome}
    (hp : p ∈ c.outcomes polls (Analysis.of source)) (hid : p.1.rule.id ∉ Rule.repeating) : Span.Apart p.2.spans := by
  rcases outcomes_cases hc hp with h | ⟨r, check, hr, hrule, hcheck, h⟩ <;> rw [h]
  · exact .nil
  · exact Rule.builtin_distinctAt hr p.1.rule hrule hid check hcheck

/-- What a rule finds that does not repeat itself is found once. -/
theorem count_raw (hc : ofConfig config = .ok c) (polls : Polls) (source : Source) {f : String × Span}
    (hf : f ∈ (c.raw source (c.outcomes polls (Analysis.of source))).map Diagnostic.finding)
    (hid : f.1 ∉ Rule.repeating) :
    ((c.raw source (c.outcomes polls (Analysis.of source))).map Diagnostic.finding).count f = 1 := by
  rw [map_finding_raw hc] at hf ⊢
  rw [← List.count_filter (p := fun f ↦ decide (f.1 ∉ Rule.repeating)) (by simpa using hid)]
  refine List.count_eq_one_of_mem ?_ (List.mem_filter.2 ⟨hf, by simpa using hid⟩)
  rw [List.filter_flatMap]
  refine List.nodup_flatMap.2 ⟨fun p hp ↦ ?_, ?_⟩
  · by_cases hrepeats : p.1.rule.id ∈ Rule.repeating
    · have hnone : (p.2.findings.map fun x ↦ (p.1.rule.id, x.span)).filter
          (fun f ↦ decide (f.1 ∉ Rule.repeating)) = [] := by
        simp [List.filter_map, Function.comp_def, hrepeats]
      rw [hnone]
      exact List.nodup_nil
    · have hspans := (outcomes_apart hc hp hrepeats).nodup.map (f := Prod.mk p.1.rule.id) fun _ _ h ↦ (Prod.mk.inj h).2
      rw [Outcome.spans, List.map_map] at hspans
      exact hspans.sublist List.filter_sublist
  · refine (List.pairwise_map.1 (outcomes_ids_nodup hc polls (Analysis.of source))).imp fun {p q} hne g hg hg' ↦ hne ?_
    obtain ⟨x, -, rfl⟩ := List.mem_map.1 (List.mem_of_mem_filter hg)
    obtain ⟨y, -, heq⟩ := List.mem_map.1 (List.mem_of_mem_filter hg')
    exact (congrArg Prod.fst heq).symm

/-- The findings of the rules that the suppressions of a file cover. -/
def covered (c : Checker) (source : Source) (outcomes : List (RuleEntry × Outcome)) : List (String × Span) :=
  let suppressions := (Suppression.resolve c.book source.path (c.directives.directives source)).1
  ((c.raw source outcomes).filter fun d ↦ suppressions.any (·.covers d)).map Diagnostic.finding

theorem suppressedFindings_report (c : Checker) (source : Source) (outcomes : List (RuleEntry × Outcome)) :
    (c.report source outcomes).suppressedFindings.Perm (c.covered source outcomes) :=
  FileReport.suppressedFindings_perm

theorem report_counts (hc : ofConfig config = .ok c) (polls : Polls) (source : Source) {y : DirectiveSyntax}
    (hy : y.directives source = []) :
    (c.report source (c.outcomes polls (Analysis.of source))).Counts
      ({ c with directives := y }.report source (c.outcomes polls (Analysis.of source)))
      ((c.raw source (c.outcomes polls (Analysis.of source))).map Diagnostic.finding) := by
  set raw := c.raw source (c.outcomes polls (Analysis.of source))
  have hexact := raw_exact hc polls source
  have hperm : ((c.report source (c.outcomes polls (Analysis.of source))).suppressedFindings.dedup ++
      (c.report source (c.outcomes polls (Analysis.of source))).ofRules.map Diagnostic.finding).Perm
        ((Diagnostic.aggregate raw).map Diagnostic.finding) :=
    (FileReport.of_splits (fun _ ↦ reported_file) (raw_ofDirective hc polls source)).perm
      (Diagnostic.aggregate_findings_nodup (active_exact hc polls source))
      (Diagnostic.aggregate_findings_nodup hexact) fun f ↦ Diagnostic.mem_findings_aggregate
  have honce := hperm.length_eq
  rw [List.length_append, List.length_map, List.length_map, ← report_undirected c hy] at honce
  have hlisted : ∀ f ∈ (c.report source (c.outcomes polls (Analysis.of source))).suppressedFindings,
      (c.report source (c.outcomes polls (Analysis.of source))).suppressedFindings.count f =
        (raw.map Diagnostic.finding).count f :=
    fun f hf ↦ FileReport.count_suppressedFindings (fun _ ↦ reported_file) hf
  refine ⟨hlisted, fun f hf hid ↦ ?_, honce⟩
  rw [hlisted f hf]
  refine count_raw hc polls source (List.count_pos_iff.1 ?_) hid
  rw [← hlisted f hf]
  exact List.count_pos_iff.2 hf

/-- Each suppressed finding is listed as often as the rules find it, and once unless its rule may repeat itself.
Taken once, the suppressed findings and those of the report are as many as the file has without directives,
so the number of suppressed findings is right exactly if none is listed twice. -/
theorem suppressed_counted (hc : ofConfig config = .ok c) (polls : Polls) (source : Source) {y : DirectiveSyntax}
    (hy : y.directives source = []) :
    if polls.start || polls.finish then
      (c.checkPolled polls source).1 = none ∧ ({ c with directives := y }.checkPolled polls source).1 = none
    else ∃ report plain, (c.checkPolled polls source).1 = some report ∧
      ({ c with directives := y }.checkPolled polls source).1 = some plain ∧
      report.Counts plain ((c.raw source (c.outcomes polls (Analysis.of source))).map Diagnostic.finding) ∧
      ((runReport [some report] false).summary.suppressed + report.ofRules.length = plain.diagnostics.length ↔
        report.suppressedFindings.Nodup) := by
  have hplain := checkPolled_directives c y polls source
  have hreport : (c.checkPolled polls source).1 = _ := checkPolled_eq hc
  rw [hreport] at hplain
  split
  case isTrue hcancelled =>
    rw [if_pos hcancelled] at hreport hplain
    exact ⟨hreport, hplain⟩
  case isFalse hcancelled =>
    rw [if_neg hcancelled] at hreport hplain
    have hcounts := report_counts hc polls source hy
    exact ⟨_, _, hreport, hplain, hcounts, hcounts.total_iff⟩

/-- A name that is found twice, in a file that is checked with its directive and with another marker. -/
theorem suppressed_counted_name :
    ∃ c source report plain y, ofConfig {} = .ok c ∧
      source = ⟨"a.c", Text.bytesOf "int f(int a{int B;}// cstylecheck:ignore"⟩ ∧
      y = ⟨DirectiveSyntax.directivePattern "unused"⟩ ∧ y.directives source = [] ∧
      (c.checkPolled (.constant false) source).1 = some report ∧
      ({ c with directives := y }.checkPolled (.constant false) source).1 = some plain ∧
      report.Counts plain
        ((c.raw source (c.outcomes (.constant false) (Analysis.of source))).map Diagnostic.finding) ∧
      ((runReport [some report] false).summary.suppressed + report.ofRules.length = plain.diagnostics.length ↔
        report.suppressedFindings.Nodup) := by
  have hc : ofConfig {} = .ok _ := rfl
  have hnone : DirectiveSyntax.directives ⟨DirectiveSyntax.directivePattern "unused"⟩
      ⟨"a.c", Text.bytesOf "int f(int a{int B;}// cstylecheck:ignore"⟩ = [] := by decide +kernel
  obtain ⟨report, plain, hreport, hplain, hcounts⟩ := suppressed_counted hc (.constant false) _ hnone
  exact ⟨_, _, report, plain, _, hc, rfl, rfl, hnone, hreport, hplain, hcounts⟩

/-- Broken declarations are read twice, and each of these rules finds something twice in them. -/
theorem suppressed_twice :
    ∃ c source report plain y, ofConfig { rules := [("STRUCTURE.UNBALANCED", .enabled false)] } = .ok c ∧
      source = ⟨"a.c", Text.bytesOf
        "// cstylecheck:ignore-file\nf(int a\x7bint*B;\x7df()\x7bstruct\x7bg()\x7b\x7bl:;\x7dgoto l;\x7d\x7d;\x7denum\x7benum\x7b],abort\x7d"⟩ ∧
      y = ⟨DirectiveSyntax.directivePattern "unused"⟩ ∧ y.directives source = [] ∧
      (c.checkPolled (.constant false) source).1 = some report ∧
      ({ c with directives := y }.checkPolled (.constant false) source).1 = some plain ∧
      (∀ id ∈ Rule.repeating, ∃ f ∈ report.suppressedFindings,
        f.1 = id ∧ report.suppressedFindings.count f = 2) ∧
      (runReport [some report] false).summary.suppressed + report.ofRules.length ≠ plain.diagnostics.length := by
  obtain ⟨c, source, hc, hsource, hnone, htwice⟩ : ∃ c source,
      ofConfig { rules := [("STRUCTURE.UNBALANCED", .enabled false)] } = .ok c ∧
      source = ⟨"a.c", Text.bytesOf
        "// cstylecheck:ignore-file\nf(int a\x7bint*B;\x7df()\x7bstruct\x7bg()\x7b\x7bl:;\x7dgoto l;\x7d\x7d;\x7denum\x7benum\x7b],abort\x7d"⟩ ∧
      DirectiveSyntax.directives ⟨DirectiveSyntax.directivePattern "unused"⟩ source = [] ∧
      ∀ id ∈ Rule.repeating, ∃ f ∈ c.covered source (c.outcomes (.constant false) (Analysis.of source)),
        f.1 = id ∧ (c.covered source (c.outcomes (.constant false) (Analysis.of source))).count f = 2 :=
    ⟨_, _, rfl, rfl, by decide +kernel, by decide +kernel⟩
  have hperm := c.suppressedFindings_report source (c.outcomes (.constant false) (Analysis.of source))
  have hrepeated : ∀ id ∈ Rule.repeating, ∃ f ∈
      (c.report source (c.outcomes (.constant false) (Analysis.of source))).suppressedFindings, f.1 = id ∧
        (c.report source (c.outcomes (.constant false) (Analysis.of source))).suppressedFindings.count f = 2 := by
    intro id hid
    obtain ⟨f, hf, hfirst, hcount⟩ := htwice id hid
    exact ⟨f, hperm.mem_iff.2 hf, hfirst, hperm.count_eq f ▸ hcount⟩
  have hreport : (c.checkPolled (.constant false) source).1 = some _ := checkPolled_eq hc
  have hplain := checkPolled_directives c ⟨DirectiveSyntax.directivePattern "unused"⟩ (.constant false) source
  rw [hreport] at hplain
  refine ⟨c, source, _, _, _, hc, hsource, rfl, hnone, hreport, hplain, hrepeated, fun htotal ↦ ?_⟩
  have hnodup := (report_counts hc (.constant false) source hnone).total_iff.1 htotal
  obtain ⟨f, hf, -, hcount⟩ := hrepeated "NAMING.RESERVED" (by decide)
  rw [List.count_eq_one_of_mem hnodup hf] at hcount
  cases hcount

end Checker

end CodeStyle
