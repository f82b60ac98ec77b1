import CodeStyle.Proofs.ReportKeys

/-!
Suppression neither loses findings nor lets them through. What the rules find is split before it is put
in order and freed of repetitions, but whether a suppression covers a finding depends on no more than the
rule and the span that make findings the same, so the split survives both.
-/

namespace CodeStyle

/-- Whether a finding tells of a directive that is wrong. -/
def Diagnostic.ofDirective (d : Diagnostic) : Bool := Text.startsWith d.ruleId "SUPPRESSION."

theorem Diagnostic.ofDirective_congr {a b : Diagnostic} (h : a.finding = b.finding) :
    a.ofDirective = b.ofDirective := by
  have hid : a.ruleId = b.ruleId := congrArg Prod.fst h
  rw [ofDirective, ofDirective, hid]

theorem RuleBook.isEnabled_iff {b : RuleBook} {id : String} :
    b.isEnabled id = true ↔ ∃ e, b.enabled? id = some e := by
  unfold isEnabled enabled?
  cases b.get? id with
  | none => simp
  | some e => cases h : e.enabled <;> simp [Option.filter, h]

namespace Suppression

variable {suppressions : List Suppression} {raw : List Diagnostic} {book : RuleBook} {file : String}
  {errors : List SuppressionError}

theorem covers_congr (s : Suppression) {a b : Diagnostic} (hfile : a.file = b.file)
    (h : a.finding = b.finding) : s.covers a = s.covers b := by
  obtain ⟨hid, hspan⟩ := Prod.ext_iff.1 h
  simp only [Diagnostic.finding] at hid hspan
  rw [covers, covers, Diagnostic.line, Diagnostic.line, hfile, hid, hspan]

theorem mem_split_fst {d : Diagnostic} :
    d ∈ (split suppressions raw).1 ↔ d ∈ raw ∧ ∀ s ∈ suppressions, s.covers d = false := by
  simp [split]

theorem of_mem_split_snd {x : Suppressed} (h : x ∈ (split suppressions raw).2) :
    x.diagnostic ∈ raw ∧ x.suppression ∈ suppressions ∧ x.suppression.covers x.diagnostic = true := by
  obtain ⟨d, hd, hx⟩ := List.mem_filterMap.1 h
  obtain ⟨s, hs, rfl⟩ := Option.map_eq_some_iff.1 hx
  have hcovers := List.find?_some hs
  exact ⟨hd, List.mem_of_find?_eq_some hs, hcovers⟩

theorem exists_mem_split_snd {d : Diagnostic} (hd : d ∈ raw) {s : Suppression} (hs : s ∈ suppressions)
    (hcovers : s.covers d = true) : ∃ x ∈ (split suppressions raw).2, x.diagnostic = d := by
  have hfind : (suppressions.find? (·.covers d)).isSome = true :=
    List.find?_isSome.2 ⟨s, hs, hcovers⟩
  obtain ⟨first, hfirst⟩ := Option.isSome_iff_exists.1 hfind
  refine ⟨⟨d, first⟩, List.mem_filterMap.2 ⟨d, hd, ?_⟩, rfl⟩
  rw [hfirst]
  rfl

theorem finding_mem_diagnostics (book : RuleBook) (file : String) {f : String × Span} :
    f ∈ (diagnostics book file errors).map Diagnostic.finding ↔
      ∃ e ∈ errors, book.isEnabled e.fault.ruleId = true ∧ (e.fault.ruleId, e.span) = f := by
  constructor
  · intro h
    obtain ⟨d, hd, rfl⟩ := List.mem_map.1 h
    obtain ⟨e, he, hd⟩ := List.mem_filterMap.1 hd
    obtain ⟨entry, hentry, rfl⟩ := Option.map_eq_some_iff.1 hd
    refine ⟨e, he, RuleBook.isEnabled_iff.2 ⟨entry, hentry⟩, ?_⟩
    rw [Diagnostic.finding, RuleBook.id_of_enabled hentry]
  · rintro ⟨e, he, hon, rfl⟩
    obtain ⟨entry, hentry⟩ := RuleBook.isEnabled_iff.1 hon
    refine List.mem_map.2 ⟨_, List.mem_filterMap.2 ⟨e, he, Option.map_eq_some_iff.2 ⟨entry, hentry, rfl⟩⟩, ?_⟩
    rw [Diagnostic.finding, RuleBook.id_of_enabled hentry]

theorem ofDirective_diagnostics {d : Diagnostic} (h : d ∈ diagnostics book file errors) :
    d.ofDirective = true := by
  obtain ⟨e, -, -, heq⟩ := (finding_mem_diagnostics book file).1 (List.mem_map_of_mem h)
  have hid : e.fault.ruleId = d.ruleId := congrArg Prod.fst heq
  rw [Diagnostic.ofDirective, ← hid]
  exact e.fault.ruleId_spelling.2

end Suppression

/-- What the rules found is split between the findings of a report and those it suppresses, and what is
wrong with directives is reported beside them. -/
structure FileReport.Splits (r : FileReport) (book : RuleBook) (raw : List Diagnostic)
    (suppressions : List Suppression) (errors : List SuppressionError) : Prop where
  disjoint : ∀ d ∈ r.diagnostics, d.ofDirective = false → ∀ x ∈ r.suppressed,
    d.finding ≠ x.diagnostic.finding
  complete : ∀ f, f ∈ raw.map Diagnostic.finding ↔
    f ∈ (r.diagnostics.filter (!·.ofDirective)).map Diagnostic.finding ∨
      f ∈ r.suppressed.map (·.diagnostic.finding)
  recorded : ∀ x ∈ r.suppressed, x.suppression ∈ suppressions ∧ x.suppression.covers x.diagnostic = true
  uncovered : ∀ d ∈ r.diagnostics, d.ofDirective = false → ∀ s ∈ suppressions, s.covers d = false
  directives : ∀ f, f ∈ (r.diagnostics.filter (·.ofDirective)).map Diagnostic.finding ↔
    ∃ e ∈ errors, book.isEnabled e.fault.ruleId = true ∧ (e.fault.ruleId, e.span) = f

namespace FileReport

variable {path : String} {encoding : Encoding} {lines : Nat} {book : RuleBook} {raw : List Diagnostic}
  {suppressions : List Suppression} {errors : List SuppressionError}

/-- Any findings of one file that are not about directives are split by the report made of them. -/
theorem of_splits (hfile : ∀ d ∈ raw, d.file = path) (hraw : ∀ d ∈ raw, d.ofDirective = false) :
    (FileReport.of path encoding lines
      ((Suppression.split suppressions raw).1 ++ Suppression.diagnostics book path errors)
      (Suppression.split suppressions raw).2).Splits book raw suppressions errors := by
  set r := FileReport.of path encoding lines
    ((Suppression.split suppressions raw).1 ++ Suppression.diagnostics book path errors)
    (Suppression.split suppressions raw).2
  have hactive : ∀ d ∈ r.diagnostics, d.ofDirective = false →
      d ∈ raw ∧ ∀ s ∈ suppressions, s.covers d = false := by
    intro d hd hrule
    rcases List.mem_append.1 (Diagnostic.mem_of_mem_aggregate hd) with hd | hd
    · exact Suppression.mem_split_fst.1 hd
    · rw [Suppression.ofDirective_diagnostics hd] at hrule
      cases hrule
  have hsuppressed : ∀ x ∈ r.suppressed, x.diagnostic ∈ raw ∧ x.suppression ∈ suppressions ∧
      x.suppression.covers x.diagnostic = true :=
    fun x hx ↦ Suppression.of_mem_split_snd (List.mem_mergeSort.1 hx)
  constructor
  case disjoint =>
    intro d hd hrule x hx heq
    obtain ⟨hdraw, huncovered⟩ := hactive d hd hrule
    obtain ⟨hxraw, hs, hcovers⟩ := hsuppressed x hx
    have hsame : d.file = x.diagnostic.file := (hfile d hdraw).trans (hfile _ hxraw).symm
    rw [← Suppression.covers_congr _ hsame heq, huncovered _ hs] at hcovers
    cases hcovers
  case complete =>
    intro f
    constructor
    · intro h
      obtain ⟨d, hd, rfl⟩ := List.mem_map.1 h
      by_cases hcovered : ∃ s ∈ suppressions, s.covers d = true
      · obtain ⟨s, hs, hcovers⟩ := hcovered
        obtain ⟨x, hx, rfl⟩ := Suppression.exists_mem_split_snd hd hs hcovers
        exact .inr (List.mem_map.2 ⟨x, List.mem_mergeSort.2 hx, rfl⟩)
      · have hstays : d ∈ (Suppression.split suppressions raw).1 :=
          Suppression.mem_split_fst.2 ⟨hd, fun s hs ↦ by simpa using fun h ↦ hcovered ⟨s, hs, h⟩⟩
        obtain ⟨d', hd', heq⟩ := Diagnostic.exists_mem_aggregate
          (List.mem_append_left (Suppression.diagnostics book path errors) hstays)
        refine .inl (List.mem_map.2 ⟨d', List.mem_filter.2 ⟨hd', ?_⟩, heq⟩)
        rw [Diagnostic.ofDirective_congr heq, hraw d hd]
        rfl
    · rintro (h | h)
      · obtain ⟨d, hd, rfl⟩ := List.mem_map.1 h
        obtain ⟨hd, hrule⟩ := List.mem_filter.1 hd
        exact List.mem_map_of_mem (hactive d hd (by simpa using hrule)).1
      · obtain ⟨x, hx, rfl⟩ := List.mem_map.1 h
        exact List.mem_map_of_mem (hsuppressed x hx).1
  case recorded => exact fun x hx ↦ (hsuppressed x hx).2
  case uncovered => exact fun d hd hrule ↦ (hactive d hd hrule).2
  case directives =>
    intro f
    rw [← Suppression.finding_mem_diagnostics book path]
    constructor
    · intro h
      obtain ⟨d, hd, rfl⟩ := List.mem_map.1 h
      obtain ⟨hd, hrule⟩ := List.mem_filter.1 hd
      rcases List.mem_append.1 (Diagnostic.mem_of_mem_aggregate hd) with hd | hd
      · rw [hraw d (Suppression.mem_split_fst.1 hd).1] at hrule
        cases hrule
      · exact List.mem_map_of_mem hd
    · intro h
      obtain ⟨d, hd, rfl⟩ := List.mem_map.1 h
      obtain ⟨d', hd', heq⟩ := Diagnostic.exists_mem_aggregate
        (List.mem_append_right (Suppression.split suppressions raw).1 hd)
      refine List.mem_map.2 ⟨d', List.mem_filter.2 ⟨hd', ?_⟩, heq⟩
      rw [Diagnostic.ofDirective_congr heq]
      exact Suppression.ofDirective_diagnostics hd

end FileReport

namespace Checker

variable {config : Config} {c : Checker}

/-- All that the rules report of a file, before anything is suppressed. -/
def raw (c : Checker) (source : Source) (outcomes : List (RuleEntry × Outcome)) : List Diagnostic :=
  outcomes.flatMap fun (e, o) ↦ c.reported source e o

theorem raw_ofDirective (hc : ofConfig config = .ok c) (polls : Polls) (source : Source) :
    ∀ d ∈ c.raw source (c.outcomes polls (Analysis.of source)), d.ofDirective = false := by
  intro d hd
  obtain ⟨⟨e, o⟩, he, hd⟩ := List.mem_flatMap.1 hd
  rcases List.mem_append.1 hd with hd | hd
  · obtain ⟨f, -, rfl⟩ := List.mem_map.1 hd
    obtain ⟨⟨e', k⟩, hk, heq⟩ := List.mem_map.1 he
    cases heq
    obtain ⟨hmem, hon⟩ := List.mem_filter.1 (evaluated_mem hk)
    refine (Rule.id_spelling e.rule ?_).2 (Bool.and_eq_true_iff.1 hon).2
    rw [← ofConfig_rules hc]
    exact List.mem_map_of_mem hmem
  · rw [(outcomes_sound hc he).failure] at hd
    cases hd

/-- A check that is not cancelled gives a report that splits what the rules found by the suppressions of
the file, and that tells of each wrong directive whose rule is on, whatever is suppressed. -/
theorem suppression_splits (hc : ofConfig config = .ok c) (polls : Polls) (source : Source) :
    if polls.start || polls.finish then (c.checkPolled polls source).1 = none
    else ∃ report, (c.checkPolled polls source).1 = some report ∧
      report.Splits c.book (c.raw source (c.outcomes polls (Analysis.of source)))
        (Suppression.resolve c.book source.path (c.directives.directives source)).1
        (Suppression.resolve c.book source.path (c.directives.directives source)).2 := by
  rw [checkPolled_eq hc]
  split
  · rfl
  · exact ⟨_, rfl, FileReport.of_splits (fun _ ↦ reported_file) (raw_ofDirective hc polls source)⟩

/-- A tab in a file that suppresses everything. -/
theorem suppression_splits_tab :
    ∃ c source report, ofConfig {} = .ok c ∧ source = ⟨"a.c", Text.bytesOf "\t// cstylecheck:ignore-file"⟩ ∧
      (c.checkPolled (.constant false) source).1 = some report ∧
      (∃ d ∈ c.raw source (c.outcomes (.constant false) (Analysis.of source)),
        ∃ s ∈ (Suppression.resolve c.book source.path (c.directives.directives source)).1,
          s.covers d = true) ∧
      report.Splits c.book (c.raw source (c.outcomes (.constant false) (Analysis.of source)))
        (Suppression.resolve c.book source.path (c.directives.directives source)).1
        (Suppression.resolve c.book source.path (c.directives.directives source)).2 := by
  have hc : ofConfig {} = .ok _ := rfl
  obtain ⟨report, hreport, hsplits⟩ :=
    suppression_splits hc (.constant false) ⟨"a.c", Text.bytesOf "\t// cstylecheck:ignore-file"⟩
  exact ⟨_, _, report, hc, rfl, hreport, by decide +kernel, hsplits⟩

end Checker

end CodeStyle
