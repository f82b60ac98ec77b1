import CodeStyle.Proofs.RuleIndependence
import CodeStyle.Report.Json

/-!
Whether a run passes. The verdict is read off three totals, one for each severity, and says what the findings of the
files say: a run fails if one of them is as grave as the threshold. What is suppressed does not count.
-/

namespace CodeStyle

theorem Severity.atLeast_trans {a b c : Severity} (h : a.atLeast b = true) (h' : b.atLeast c = true) :
    a.atLeast c = true := by
  simp only [atLeast, decide_eq_true_eq] at h h' ⊢
  exact Nat.le_trans h' h

namespace Summary

/-- The totals of the severities from a threshold on count the findings that reach it. -/
theorem countAtLeast_of (files : List FileReport) (cancelled : Nat) (t : Severity) :
    (of files cancelled).countAtLeast t = (files.flatMap (·.diagnostics)).countP (·.severity.atLeast t) := by
  have hcounts (ds : List Diagnostic) :
      ds.countP (·.severity.atLeast .error) = ds.countP (·.severity == .error) ∧
      ds.countP (·.severity.atLeast .warning) =
        ds.countP (·.severity == .error) + ds.countP (·.severity == .warning) ∧
      ds.countP (·.severity.atLeast .info) =
        ds.countP (·.severity == .error) + ds.countP (·.severity == .warning) + ds.countP (·.severity == .info) := by
    induction ds with
    | nil => exact ⟨rfl, rfl, rfl⟩
    | cons d ds ih =>
      obtain ⟨herror, hwarning, hinfo⟩ := ih
      simp only [List.countP_cons, herror, hwarning, hinfo]
      cases d.severity <;> simp [Severity.atLeast, Severity.rank] <;> omega
  obtain ⟨herror, hwarning, hinfo⟩ := hcounts (files.flatMap (·.diagnostics))
  cases t with
  | error => exact herror.symm
  | warning => exact hwarning.symm
  | info => exact hinfo.symm

end Summary

namespace RunReport

variable {r r' : RunReport} {t : Severity}

/-- The totals of a report are those of its files. -/
def Tallied (r : RunReport) : Prop := ∃ cancelled, r.summary = Summary.of r.files cancelled

theorem Tallied.total (h : r.Tallied) : r.summary.total = r.diagnostics.length := by
  obtain ⟨cancelled, hsummary⟩ := h
  have hall : ∀ d ∈ r.diagnostics, d.severity.atLeast .info = true := by
    intro d _
    cases d.severity <;> rfl
  have hinfo := Summary.countAtLeast_of r.files cancelled .info
  rw [← hsummary] at hinfo
  exact hinfo.trans (List.countP_eq_length.2 hall)

theorem Tallied.hasFindingsAt_iff (h : r.Tallied) :
    r.hasFindingsAt t = true ↔ ∃ f ∈ r.files, ∃ d ∈ f.diagnostics, d.severity.atLeast t = true := by
  obtain ⟨cancelled, hsummary⟩ := h
  rw [hasFindingsAt, decide_eq_true_iff, hsummary, Summary.countAtLeast_of, List.countP_pos_iff]
  simp only [List.mem_flatMap]
  constructor
  · rintro ⟨d, ⟨f, hf, hd⟩, hgrave⟩
    exact ⟨f, hf, d, hd, hgrave⟩
  · rintro ⟨f, hf, d, hd, hgrave⟩
    exact ⟨d, ⟨f, hf, hd⟩, hgrave⟩

theorem Tallied.passed_mono (h : r.Tallied) {a b : ReportContext} (hab : b.failOn.atLeast a.failOn = true)
    (hpass : a.passed r = true) : b.passed r = true := by
  simp only [ReportContext.passed, Bool.not_eq_true', Bool.eq_false_iff, ne_eq, h.hasFindingsAt_iff] at hpass ⊢
  rintro ⟨f, hf, d, hd, hgrave⟩
  exact hpass ⟨f, hf, d, hd, Severity.atLeast_trans hgrave hab⟩

/-- The verdict knows nothing of a file but its findings. -/
theorem Tallied.passed_congr (h : r.Tallied) (h' : r'.Tallied)
    (hsame : r.files.map (·.diagnostics) = r'.files.map (·.diagnostics)) (context : ReportContext) :
    context.passed r = context.passed r' := by
  have hflat : r.files.flatMap (·.diagnostics) = r'.files.flatMap (·.diagnostics) := by
    rw [List.flatMap_def, hsame, List.flatMap_def]
  obtain ⟨n, hn⟩ := h
  obtain ⟨n', hn'⟩ := h'
  rw [ReportContext.passed, ReportContext.passed, hasFindingsAt, hasFindingsAt, hn, hn', Summary.countAtLeast_of,
    Summary.countAtLeast_of, hflat]

end RunReport

namespace Checker

variable {config : Config} {c : Checker}

theorem tallied_runReport (results : List (Option FileReport)) (cancelled : Bool) :
    (runReport results cancelled).Tallied :=
  ⟨_, rfl⟩

theorem run_uncancelled (hc : ofConfig config = .ok c) (sources : List Source) :
    c.run false sources = runReport (sources.map fun s ↦ some (c.fullReport s)) false := by
  have hcheck (s : Source) : c.check false s = (some (c.fullReport s), false) :=
    Prod.ext (check_uncancelled hc s) (check_snd (check_uncancelled hc s))
  have hall : c.checkAll false sources = (sources.map fun s ↦ some (c.fullReport s), false) := by
    rw [checkAll_uncancelled fun s _ ↦ by rw [hcheck]]
    simp only [hcheck]
  rw [run, hall]

end Checker

end CodeStyle
