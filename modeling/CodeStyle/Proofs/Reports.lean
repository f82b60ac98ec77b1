import CodeStyle.Checker
import Mathlib.Tactic.Common

/-!
What a report holds. Each diagnostic of a report was found by a rule that was evaluated, or says why a
rule failed, or tells of a directive that is wrong; and a configuration changes no rule but only its
severity and whether it is on.
-/

namespace CodeStyle

@[simp]
theorem RuleEntry.rule_apply (e : RuleEntry) (setting : RuleSetting) : (e.apply setting).rule = e.rule := by
  cases setting <;> rfl

namespace RuleBook

variable {b : RuleBook} {id : String} {e : RuleEntry}

theorem map_rule_apply (b : RuleBook) (id : String) (setting : RuleSetting) :
    (b.apply id setting).entries.map RuleEntry.rule = b.entries.map RuleEntry.rule := by
  rw [apply, List.map_map]
  refine List.map_congr_left fun e _ ↦ ?_
  rw [Function.comp_apply, apply_ite RuleEntry.rule, RuleEntry.rule_apply, ite_self]

theorem map_rule_applyAll (b : RuleBook) (settings : List (String × RuleSetting)) :
    (b.applyAll settings).entries.map RuleEntry.rule = b.entries.map RuleEntry.rule := by
  induction settings generalizing b with
  | nil => rfl
  | cons p settings ih => exact (ih (b.apply p.1 p.2)).trans (map_rule_apply b p.1 p.2)

theorem map_rule_ofRules (rules : List Rule) : (ofRules rules).entries.map RuleEntry.rule = rules := by
  rw [ofRules, List.map_map]
  exact List.map_id' rules

theorem id_of_enabled (h : b.enabled? id = some e) : e.rule.id = id := by
  have hget := (Option.filter_eq_some_iff.1 h).1
  simpa using List.find?_some hget

end RuleBook

namespace Suppression

variable {P : Span → Prop} {p : Progress} {book : RuleBook} {file : String}

/-- The faults and the open ranges so far stand at spans with the property `P`. -/
structure Progress.At (P : Span → Prop) (p : Progress) : Prop where
  errors : ∀ e ∈ p.errors, P e.span
  opened : ∀ d ∈ p.opened, P d.span

theorem mem_of_mem_close {d o : Directive} {opened : List Directive} (h : o ∈ (close d opened).2) :
    o ∈ opened := by
  unfold close at h
  split at h
  · cases h
  · split at h
    · exact h
    · exact List.mem_of_mem_eraseP h

theorem step_at (h : p.At P) {d : Directive} (hd : P d.span) : (step book file p d).At P := by
  have herrors : ∀ e ∈ p.errors ++ unknownFilters book d, P e.span := by
    intro e he
    rcases List.mem_append.1 he with he | he
    · exact h.errors e he
    · obtain ⟨filter, -, rfl⟩ := List.mem_map.1 he
      exact hd
  unfold step
  dsimp only
  split
  · exact ⟨herrors, h.opened⟩
  · exact ⟨herrors, h.opened⟩
  · exact ⟨herrors, h.opened⟩
  · refine ⟨herrors, fun o ho ↦ ?_⟩
    rcases List.mem_cons.1 ho with rfl | ho
    · exact hd
    · exact h.opened o ho
  · refine ⟨fun e he ↦ ?_, fun o ho ↦ h.opened o (mem_of_mem_close ho)⟩
    rcases List.mem_append.1 he with he | he
    · exact herrors e he
    · split at he
      · cases List.mem_singleton.1 he
        exact hd
      · cases he

theorem foldl_at {ds : List Directive} (h : p.At P) (hds : ∀ d ∈ ds, P d.span) :
    (ds.foldl (step book file) p).At P := by
  induction ds generalizing p with
  | nil => exact h
  | cons d ds ih => exact ih (step_at h (hds d (by simp))) fun o ho ↦ hds o (by simp [ho])

/-- What is wrong with directives is told at the directives. -/
theorem resolve_at (book : RuleBook) (file : String) {ds : List Directive} (hds : ∀ d ∈ ds, P d.span) :
    ∀ e ∈ (resolve book file ds).2, P e.span := by
  intro e he
  have hstart : Progress.At P ⟨[], [], []⟩ := ⟨by simp, by simp⟩
  have h : (ds.foldl (step book file) ⟨[], [], []⟩).At P := foldl_at hstart hds
  rcases List.mem_append.1 (List.mem_mergeSort.1 he) with he | he
  · exact h.errors e he
  · obtain ⟨d, hd, rfl⟩ := List.mem_map.1 he
    exact h.opened d (List.mem_reverse.1 hd)

end Suppression

theorem Diagnostic.mem_of_mem_dropRepeated {d : Diagnostic} {ds : List Diagnostic}
    (h : d ∈ dropRepeated ds) : d ∈ ds := by
  fun_induction dropRepeated ds with
  | case1 a b rest _ ih =>
    rcases List.mem_cons.1 (ih h) with rfl | hd
    · exact List.mem_cons_self
    · exact List.mem_cons_of_mem _ (List.mem_cons_of_mem _ hd)
  | case2 a b rest _ ih =>
    rcases List.mem_cons.1 h with rfl | h
    · exact List.mem_cons_self
    · exact List.mem_cons_of_mem _ (ih h)
  | case3 => exact h

theorem Diagnostic.mem_of_mem_aggregate {d : Diagnostic} {ds : List Diagnostic} (h : d ∈ aggregate ds) :
    d ∈ ds :=
  List.mem_mergeSort.1 (mem_of_mem_dropRepeated h)

/-- All diagnostics of a report, those that are suppressed included. -/
def FileReport.everything (r : FileReport) : List Diagnostic :=
  r.diagnostics ++ r.suppressed.map Suppressed.diagnostic

namespace Checker

variable {c : Checker} {source : Source} {outcomes : List (RuleEntry × Outcome)} {d : Diagnostic}

/-- Where a diagnostic of a report comes from. -/
inductive Origin (c : Checker) (source : Source) (outcomes : List (RuleEntry × Outcome)) :
    Diagnostic → Prop
  | found {e : RuleEntry} {o : Outcome} {f : Finding} (he : (e, o) ∈ outcomes) (hf : f ∈ o.findings) :
    Origin c source outcomes (e.diagnostic source f)
  | failed {e : RuleEntry} {o : Outcome} {f : Failure} {d : Diagnostic} (he : (e, o) ∈ outcomes)
    (hf : o.failure = some f) (hd : d ∈ c.failureDiagnostics source e.rule.id f) :
    Origin c source outcomes d
  | misdirected {e : SuppressionError} {d : Diagnostic}
    (he : e ∈ (Suppression.resolve c.book source.path (c.directives.directives source)).2)
    (hspan : d.span = e.span) (hid : d.ruleId = e.fault.ruleId) : Origin c source outcomes d

theorem reported_origin (h : d ∈ outcomes.flatMap fun (e, o) ↦ c.reported source e o) :
    Origin c source outcomes d := by
  obtain ⟨⟨e, o⟩, he, h⟩ := List.mem_flatMap.1 h
  rcases List.mem_append.1 h with h | h
  · obtain ⟨f, hf, rfl⟩ := List.mem_map.1 h
    exact .found he hf
  · obtain ⟨f, hf, hd⟩ := List.mem_flatMap.1 h
    exact .failed he (Option.mem_toList.1 hf) hd

/-- A report holds nothing but what its rules and its directives account for. -/
theorem report_origin (h : d ∈ (c.report source outcomes).everything) : Origin c source outcomes d := by
  rcases List.mem_append.1 h with h | h
  · rcases List.mem_append.1 (Diagnostic.mem_of_mem_aggregate h) with h | h
    · exact reported_origin (List.mem_filter.1 h).1
    · obtain ⟨e, he, hd⟩ := List.mem_filterMap.1 h
      obtain ⟨entry, hentry, rfl⟩ := Option.map_eq_some_iff.1 hd
      exact .misdirected he rfl (RuleBook.id_of_enabled hentry)
  · obtain ⟨x, hx, rfl⟩ := List.mem_map.1 h
    obtain ⟨d, hd, hx⟩ := List.mem_filterMap.1 (List.mem_mergeSort.1 hx)
    obtain ⟨s, -, rfl⟩ := Option.map_eq_some_iff.1 hx
    exact reported_origin hd

end Checker

end CodeStyle
