import CodeStyle.Proofs.ReportOrder
import Mathlib.Data.List.Forall2

/-!
Keys of findings. A key joins the rule, the path and the two offsets of a finding by bars. A path may
hold bars and digits itself, but no rule does and no number does, so that the first bar and the last two
are always those of the key.
-/

namespace CodeStyle

namespace Diagnostic

variable {a b : Diagnostic}

theorem eq_of_append_first {bar : Char} {x x' y y' : List Char} (hx : bar ∉ x) (hx' : bar ∉ x')
    (h : x ++ bar :: y = x' ++ bar :: y') : x = x' ∧ y = y' := by
  have hfront {z w : List Char} (hz : bar ∉ z) : (z ++ bar :: w).takeWhile (· != bar) = z := by
    have hpass : ∀ c ∈ z, (c != bar) = true := by
      intro c hc
      simpa using ne_of_mem_of_not_mem hc hz
    rw [List.takeWhile_append_of_pos hpass]
    simp
  have hxx : x = x' := by rw [← hfront (w := y) hx, h, hfront hx']
  subst hxx
  simpa using h

theorem eq_of_append_last {bar : Char} {x x' y y' : List Char} (hy : bar ∉ y) (hy' : bar ∉ y')
    (h : x ++ bar :: y = x' ++ bar :: y') : x = x' ∧ y = y' := by
  have hrev := congrArg List.reverse h
  simp only [List.reverse_append, List.reverse_cons, List.append_assoc, List.singleton_append] at hrev
  obtain ⟨hyy, hxx⟩ := eq_of_append_first (by simpa using hy) (by simpa using hy') hrev
  exact ⟨List.reverse_inj.1 hxx, List.reverse_inj.1 hyy⟩

theorem bar_notMem_repr (n : Nat) : '|' ∉ n.repr.toList := by
  intro h
  rw [Nat.toList_repr] at h
  have hdigit := Nat.isDigit_of_mem_toDigits (by decide) (by decide) h
  exact absurd hdigit (by decide)

theorem eq_of_toList_repr {m n : Nat} (h : m.repr.toList = n.repr.toList) : m = n := by
  rw [Nat.toList_repr, Nat.toList_repr] at h
  calc
    m = Nat.ofDigitChars 10 (Nat.toDigits 10 m) 0 := Nat.ofDigitChars_ten_toDigits.symm
    _ = Nat.ofDigitChars 10 (Nat.toDigits 10 n) 0 := by rw [h]
    _ = n := Nat.ofDigitChars_ten_toDigits

theorem toList_key (d : Diagnostic) :
    d.key.toList = d.ruleId.toList ++ '|' :: (((d.file.toList ++ '|' :: d.span.startByte.repr.toList))
      ++ '|' :: d.span.endByte.repr.toList) := by
  have hbar : "|".toList = ['|'] := rfl
  simp [key, hbar, toString]

/-- Whatever the paths are, a key tells the rule, the path and the offsets. -/
theorem eq_of_key (ha : '|' ∉ a.ruleId.toList) (hb : '|' ∉ b.ruleId.toList) (h : a.key = b.key) :
    a.ruleId = b.ruleId ∧ a.file = b.file ∧ a.span.startByte = b.span.startByte ∧
      a.span.endByte = b.span.endByte := by
  have hlist := congrArg String.toList h
  rw [toList_key, toList_key] at hlist
  obtain ⟨hid, hrest⟩ := eq_of_append_first ha hb hlist
  obtain ⟨hfront, hend⟩ := eq_of_append_last (bar_notMem_repr _) (bar_notMem_repr _) hrest
  obtain ⟨hfile, hstart⟩ := eq_of_append_last (bar_notMem_repr _) (bar_notMem_repr _) hfront
  exact ⟨String.toList_inj.1 hid, String.toList_inj.1 hfile, eq_of_toList_repr hstart,
    eq_of_toList_repr hend⟩

end Diagnostic

/-- No rule has a bar in its id, and none that looks at files reports on directives. -/
theorem Rule.id_spelling : ∀ rule ∈ Rule.builtin, '|' ∉ rule.id.toList ∧
    (rule.check.isSome → Text.startsWith rule.id "SUPPRESSION." = false) := by
  simp only [Rule.builtin, Rule.Lexical.rules, Rule.Naming.rules, Rule.Layout.rules, Rule.Structure.rules,
    Rule.Comments.rules, Rule.Keywords.rules, Rule.Documentation.rules, Rule.engineRules, Text.startsWith,
    List.forall_mem_append, List.forall_mem_cons, List.not_mem_nil, Option.isSome_some, Option.isSome_none,
    Bool.false_eq_true, true_implies, false_implies, implies_true, and_true]
  and_intros
  all_goals
    -- characters are not decoded out of the literals, which is slow
    repeat rw [String.toList_ofList]
    decide

theorem Rule.ids_nodup : (Rule.builtin.map Rule.id).Nodup := by
  decide +kernel

theorem SuppressionFault.ruleId_spelling (fault : SuppressionFault) : '|' ∉ fault.ruleId.toList ∧
    Text.startsWith fault.ruleId "SUPPRESSION." = true := by
  cases fault
  all_goals
    simp only [ruleId, Text.startsWith]
    repeat rw [String.toList_ofList]
    decide

namespace Checker

variable {config : Config} {c : Checker} {polls : Polls} {source : Source} {d : Diagnostic}

theorem ofConfig_ids_nodup (hc : ofConfig config = .ok c) : (c.book.entries.map fun e ↦ e.rule.id).Nodup := by
  have h := Rule.ids_nodup
  rw [← ofConfig_rules hc, List.map_map] at h
  exact h

theorem reported_file {outcomes : List (RuleEntry × Outcome)}
    (h : d ∈ outcomes.flatMap fun (e, o) ↦ c.reported source e o) : d.file = source.path := by
  obtain ⟨⟨e, o⟩, -, h⟩ := List.mem_flatMap.1 h
  rcases List.mem_append.1 h with h | h
  · obtain ⟨f, -, rfl⟩ := List.mem_map.1 h
    rfl
  · obtain ⟨f, -, h⟩ := List.mem_flatMap.1 h
    obtain ⟨engine, -, rfl⟩ := List.mem_map.1 h
    rfl

theorem report_file {outcomes : List (RuleEntry × Outcome)} (h : d ∈ (c.report source outcomes).diagnostics) :
    d.file = source.path := by
  rcases List.mem_append.1 (Diagnostic.mem_of_mem_aggregate h) with h | h
  · exact reported_file (List.mem_filter.1 h).1
  · obtain ⟨e, -, hd⟩ := List.mem_filterMap.1 h
    obtain ⟨entry, -, rfl⟩ := Option.map_eq_some_iff.1 hd
    rfl

theorem report_bar (hc : ofConfig config = .ok c)
    (hd : d ∈ (c.report source (c.outcomes polls (Analysis.of source))).everything) :
    '|' ∉ d.ruleId.toList := by
  cases report_origin hd with
  | @found e o f he hf =>
    obtain ⟨⟨e', k⟩, hk, heq⟩ := List.mem_map.1 he
    cases heq
    refine (Rule.id_spelling e.rule ?_).1
    rw [← ofConfig_rules hc]
    exact List.mem_map_of_mem (List.mem_filter.1 (evaluated_mem hk)).1
  | failed he hf _ =>
    rw [(outcomes_sound hc he).failure] at hf
    cases hf
  | misdirected _ _ hid =>
    rw [hid]
    exact (SuppressionFault.ruleId_spelling _).1

theorem report_pairwise (hc : ofConfig config = .ok c) (polls : Polls) (source : Source) :
    (c.report source (c.outcomes polls (Analysis.of source))).diagnostics.Pairwise Diagnostic.Precedes := by
  refine Diagnostic.aggregate_pairwise (s := source) fun d hd ↦ ?_
  -- what is dropped as repeated has the span of what is kept
  obtain ⟨d', hd', heq⟩ := Diagnostic.exists_mem_aggregate hd
  have hspan : d'.span = d.span := congrArg Prod.snd heq
  rw [← hspan]
  exact report_exact hc (List.mem_append_left _ hd')

/-- Files gave these results, each told in its own way whether the run is cancelled. -/
def Gave (c : Checker) (sources : List Source) (results : List (Option FileReport)) : Prop :=
  List.Forall₂ (fun s r ↦ ∃ polls, r = (c.checkPolled polls s).1) sources results

theorem checkAll_gave (c : Checker) (cancelled : Bool) (sources : List Source) :
    c.Gave sources (c.checkAll cancelled sources).1 := by
  induction sources generalizing cancelled with
  | nil => exact .nil
  | cons s rest ih => exact .cons ⟨.constant cancelled, rfl⟩ (ih _)

variable {sources : List Source} {results : List (Option FileReport)}

theorem Gave.report_of_mem (hc : ofConfig config = .ok c) (h : c.Gave sources results) {r : FileReport}
    (hr : some r ∈ results) :
    ∃ source ∈ sources, ∃ polls, r = c.report source (c.outcomes polls (Analysis.of source)) := by
  induction h with
  | nil => cases hr
  | @cons s r' sources results hs _ ih =>
    rcases List.mem_cons.1 hr with rfl | hr
    · obtain ⟨polls, hpolls⟩ := hs
      rw [checkPolled_eq hc] at hpolls
      split at hpolls
      · cases hpolls
      · exact ⟨s, List.mem_cons_self, polls, Option.some.inj hpolls⟩
    · obtain ⟨source, hsource, hpolls⟩ := ih hr
      exact ⟨source, List.mem_cons_of_mem _ hsource, hpolls⟩

theorem Gave.paths (hc : ofConfig config = .ok c) (h : c.Gave sources results) :
    ((results.filterMap id).map FileReport.path).Sublist (sources.map Source.path) := by
  induction h with
  | nil => exact .slnil
  | @cons s r sources results hs _ ih =>
    obtain ⟨polls, rfl⟩ := hs
    rw [checkPolled_eq hc]
    split
    · exact ih.cons _
    · exact ih.cons_cons _

theorem Gave.keys (hc : ofConfig config = .ok c) (hpaths : (sources.map Source.path).Nodup)
    (h : c.Gave sources results) (cancelled : Bool) :
    ((runReport results cancelled).diagnostics.map Diagnostic.key).Nodup := by
  have hmade (r : FileReport) (hr : r ∈ results.filterMap id) :=
    h.report_of_mem hc (by simpa using hr)
  have hdistinct : (results.filterMap id).Pairwise fun r r' ↦ r.path ≠ r'.path :=
    List.pairwise_map.1 (hpaths.sublist (h.paths hc))
  have hfile (r : FileReport) (hr : r ∈ results.filterMap id) (d : Diagnostic) (hd : d ∈ r.diagnostics) :
      d.file = r.path ∧ '|' ∉ d.ruleId.toList := by
    obtain ⟨source, -, polls, rfl⟩ := hmade r hr
    exact ⟨report_file hd, report_bar hc (List.mem_append_left _ hd)⟩
  refine List.pairwise_map.2 (List.pairwise_flatMap.2 ⟨fun r hr ↦ ?_, ?_⟩)
  · obtain ⟨source, -, polls, rfl⟩ := hmade r hr
    refine (report_pairwise hc polls source).imp_of_mem fun {a b} ha hb hab hkey ↦ ?_
    obtain ⟨hid, -, hstart, hend⟩ := Diagnostic.eq_of_key (hfile _ hr a ha).2 (hfile _ hr b hb).2 hkey
    have hspan : a.span = b.span := (report_exact hc (List.mem_append_left _ ha)).ext
      (report_exact hc (List.mem_append_left _ hb)) hstart hend
    exact hab.finding_ne (Prod.ext hid hspan)
  · refine hdistinct.imp_of_mem fun {r r'} hr hr' hne a ha b hb hkey ↦ hne ?_
    obtain ⟨hpath, hbar⟩ := hfile r hr a ha
    obtain ⟨hpath', hbar'⟩ := hfile r' hr' b hb
    rw [← hpath, ← hpath']
    exact (Diagnostic.eq_of_key hbar hbar' hkey).2.1

/-- A report is strictly increasing in start, rule and end, and so names no rule twice at one span. The
keys of all findings of a run over files with different paths differ, whichever of the files are cancelled. -/
theorem report_strictly_ordered (hc : ofConfig config = .ok c) :
    (∀ polls source,
      if polls.start || polls.finish then (c.checkPolled polls source).1 = none
      else ∃ report, (c.checkPolled polls source).1 = some report ∧
        report.diagnostics.Pairwise Diagnostic.Precedes ∧
        (report.diagnostics.map Diagnostic.finding).Nodup) ∧
    ∀ sources : List Source, (sources.map Source.path).Nodup →
      (∀ cancelled, ((c.run cancelled sources).diagnostics.map Diagnostic.key).Nodup) ∧
      ∀ results, c.Gave sources results → ∀ cancelled,
        ((runReport results cancelled).diagnostics.map Diagnostic.key).Nodup := by
  refine ⟨fun polls source ↦ ?_, fun sources hpaths ↦ ⟨fun cancelled ↦ ?_, fun results h ↦ ?_⟩⟩
  · rw [checkPolled_eq hc]
    split
    · rfl
    · have hpairwise := report_pairwise hc polls source
      refine ⟨_, rfl, hpairwise, List.pairwise_map.2 (hpairwise.imp ?_)⟩
      exact Diagnostic.Precedes.finding_ne
  · exact (checkAll_gave c cancelled sources).keys hc hpaths _
  · exact h.keys hc hpaths

/-- Two files, where the path of one is the path of the other with a bar and an offset behind it. -/
theorem report_strictly_ordered_bar :
    ∃ c, ofConfig {} = .ok c ∧
      (∃ report, (c.checkPolled (.constant false) ⟨"a.c|0", [9, 9]⟩).1 = some report ∧
        report.diagnostics.Pairwise Diagnostic.Precedes ∧
        (report.diagnostics.map Diagnostic.finding).Nodup) ∧
      ["a.c", "a.c|0"].Nodup ∧
      c.Gave [⟨"a.c", [9]⟩, ⟨"a.c|0", [9, 9]⟩] (c.checkAll false [⟨"a.c", [9]⟩, ⟨"a.c|0", [9, 9]⟩]).1 ∧
      ((runReport (c.checkAll false [⟨"a.c", [9]⟩, ⟨"a.c|0", [9, 9]⟩]).1 true).diagnostics.map
        Diagnostic.key).Nodup ∧
      ((c.run false [⟨"a.c", [9]⟩, ⟨"a.c|0", [9, 9]⟩]).diagnostics.map Diagnostic.key).Nodup := by
  obtain ⟨c, hc⟩ : ∃ c, ofConfig {} = .ok c := ⟨_, rfl⟩
  have hpaths : ["a.c", "a.c|0"].Nodup := by decide
  obtain ⟨hreport, hrun⟩ := report_strictly_ordered hc
  obtain ⟨hsequential, hany⟩ := hrun [⟨"a.c", [9]⟩, ⟨"a.c|0", [9, 9]⟩] hpaths
  have hgave := checkAll_gave c false [⟨"a.c", [9]⟩, ⟨"a.c|0", [9, 9]⟩]
  exact ⟨c, hc, hreport (.constant false) ⟨"a.c|0", [9, 9]⟩, hpaths, hgave, hany _ hgave true,
    hsequential false⟩

end Checker

end CodeStyle
