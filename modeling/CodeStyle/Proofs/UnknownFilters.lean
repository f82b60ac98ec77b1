import CodeStyle.Proofs.RangePairing
import CodeStyle.Proofs.SuppressionSplit

/-!
Filters that name no rule. Each of them is an error at its directive, but a report keeps one finding for
each rule and place, so that of the unknown filters at one place it tells only the one whose message comes
first.
-/

namespace CodeStyle

namespace Diagnostic

variable {a b d x : Diagnostic} {ds : List Diagnostic}

theorem message_le_of_order (hfinding : a.finding = b.finding) (h : (a.order b).isLE = true) :
    a.message ≤ b.message := by
  obtain ⟨hid, hspan⟩ := Prod.ext_iff.1 hfinding
  simp only [finding] at hid hspan
  simp only [order, line, column, hid, hspan, Std.ReflCmp.compare_self, Ordering.eq_then] at h
  cases hmessage : compare a.message b.message with
  | lt => exact String.not_lt.1 (String.lt_asymm (compareOfLessAndEq_eq_lt.1 hmessage))
  | eq =>
    have heq : a.message = b.message := Std.LawfulEqOrd.eq_of_compare hmessage
    exact heq ▸ String.le_refl a.message
  | gt =>
    rw [hmessage] at h
    cases h

/-- What is kept of findings in order comes before all that are the same. -/
theorem dropRepeated_first (hle : ds.Pairwise fun a b ↦ (a.order b).isLE = true)
    (hprec : ds.Pairwise fun a b ↦ a.Precedes b ∨ a.finding = b.finding) (hx : x ∈ dropRepeated ds) (hd : d ∈ ds)
    (h : x.finding = d.finding) : (x.order d).isLE = true := by
  fun_induction dropRepeated ds generalizing d with
  | case1 a b rest hab ih =>
    obtain ⟨ha, hb⟩ := List.pairwise_cons.1 hle
    obtain ⟨ha', hb'⟩ := List.pairwise_cons.1 hprec
    have hrest : (a :: rest).Pairwise fun a b ↦ (a.order b).isLE = true :=
      List.pairwise_cons.2 ⟨fun e he ↦ ha e (List.mem_cons_of_mem _ he), (List.pairwise_cons.1 hb).2⟩
    have hrest' : (a :: rest).Pairwise fun a b ↦ a.Precedes b ∨ a.finding = b.finding :=
      List.pairwise_cons.2 ⟨fun e he ↦ ha' e (List.mem_cons_of_mem _ he), (List.pairwise_cons.1 hb').2⟩
    rcases List.mem_cons.1 hd with rfl | hd
    · exact ih hrest hrest' hx List.mem_cons_self h
    · rcases List.mem_cons.1 hd with rfl | hd
      · have hxa := ih hrest hrest' hx List.mem_cons_self (h.trans (sameFinding_iff.1 hab).symm)
        exact Std.TransCmp.isLE_trans hxa (ha d List.mem_cons_self)
      · exact ih hrest hrest' hx (List.mem_cons_of_mem _ hd) h
  | case2 a b rest hab ih =>
    obtain ⟨ha, hb⟩ := List.pairwise_cons.1 hle
    obtain ⟨ha', hb'⟩ := List.pairwise_cons.1 hprec
    rcases List.mem_cons.1 hx with rfl | hxb
    · rcases List.mem_cons.1 hd with rfl | hd
      · exact Std.ReflCmp.isLE_rfl
      · exact ha d hd
    · rcases List.mem_cons.1 hd with rfl | hd
      · -- `d` comes before `b` and is not the same, so nothing behind `b` is the same as `d`.
        have hdb : d.Precedes b :=
          (ha' b List.mem_cons_self).resolve_right fun hsame ↦ hab (sameFinding_iff.2 hsame)
        have hdx : d.Precedes x := by
          rcases List.mem_cons.1 (mem_of_mem_dropRepeated hxb) with rfl | hxr
          · exact hdb
          · rcases (List.pairwise_cons.1 hb').1 x hxr with hlater | hsame
            · exact hdb.trans hlater
            · exact hdb.congr_right hsame
        exact absurd h.symm hdx.finding_ne
      · exact ih hb hb' hxb hd h
  | case3 ds hds =>
    rcases eq_nil_or_singleton hds with rfl | ⟨e, rfl⟩
    · cases hx
    · rw [List.mem_singleton.1 hx, List.mem_singleton.1 hd]
      exact Std.ReflCmp.isLE_rfl

/-- Of the findings of one rule at one place the one with the least message is kept. -/
theorem aggregate_least {s : Source} (hexact : ∀ d ∈ ds, s.Exact d.span) (hx : x ∈ aggregate ds) (hd : d ∈ ds)
    (h : x.finding = d.finding) : x.message ≤ d.message := by
  have hsorted := sorted_mergeSort order ds
  have hprec := hsorted.imp_of_mem fun ha hb hab ↦
    precedes_of_order (hexact _ (List.mem_mergeSort.1 ha)) (hexact _ (List.mem_mergeSort.1 hb)) hab
  exact message_le_of_order h (dropRepeated_first hsorted hprec hx (List.mem_mergeSort.2 hd) h)

end Diagnostic

namespace Suppression

variable {book : RuleBook} {ds : List Directive} {errors : List SuppressionError}
  {span : Span} {message : String}

def unknownRuleId : String := "SUPPRESSION.UNKNOWN_RULE"

/-- What there is to say of the unknown filters of the directives at one place. -/
def unknownMessages (book : RuleBook) (ds : List Directive) (span : Span) : List String :=
  (ds.filter (·.span == span)).flatMap fun d ↦ (strangers book d).map fun f ↦ (SuppressionFault.unknownRule f).message

theorem mem_unknownMessages : message ∈ unknownMessages book ds span ↔
    ∃ d ∈ ds, d.span = span ∧ ∃ f ∈ strangers book d, (SuppressionFault.unknownRule f).message = message := by
  simp [unknownMessages, and_assoc]

theorem mem_errors_unknown (h : book.entries ≠ []) (file : String) :
    (∃ e ∈ (resolve book file ds).2, e.fault.ruleId = unknownRuleId ∧ e.span = span ∧ e.fault.message = message) ↔
      message ∈ unknownMessages book ds span := by
  obtain ⟨pairs, -, -, hperm⟩ := resolve_paired h file ds
  rw [mem_unknownMessages]
  constructor
  · rintro ⟨e, he, hid, rfl, rfl⟩
    rw [hperm.mem_iff] at he
    rcases List.mem_append.1 he with he | he
    · rcases List.mem_append.1 he with he | he
      · obtain ⟨d, hd, he⟩ := List.mem_flatMap.1 he
        obtain ⟨f, hf, rfl⟩ := List.mem_map.1 he
        exact ⟨d, hd, rfl, f, hf, rfl⟩
      · obtain ⟨d, -, rfl⟩ := List.mem_map.1 he
        change SuppressionFault.unmatchedEnd.ruleId = unknownRuleId at hid
        exact absurd hid (by decide)
    · obtain ⟨d, -, rfl⟩ := List.mem_map.1 he
      change SuppressionFault.unterminated.ruleId = unknownRuleId at hid
      exact absurd hid (by decide)
  · rintro ⟨d, hd, rfl, f, hf, rfl⟩
    refine ⟨⟨.unknownRule f, d.span⟩, hperm.mem_iff.2 ?_, rfl, rfl, rfl⟩
    exact List.mem_append_left _ (List.mem_append_left _
      (List.mem_flatMap.2 ⟨d, hd, List.mem_map.2 ⟨f, hf, rfl⟩⟩))

theorem exists_mem_diagnostics {id : String} (hon : book.isEnabled id = true) (file : String) :
    (∃ x ∈ diagnostics book file errors, x.ruleId = id ∧ x.span = span ∧ x.message = message) ↔
      ∃ e ∈ errors, e.fault.ruleId = id ∧ e.span = span ∧ e.fault.message = message := by
  constructor
  · rintro ⟨x, hx, hid, hspan, hmessage⟩
    obtain ⟨e, he, hx⟩ := List.mem_filterMap.1 hx
    obtain ⟨entry, hentry, rfl⟩ := Option.map_eq_some_iff.1 hx
    refine ⟨e, he, ?_, hspan, hmessage⟩
    rw [← RuleBook.id_of_enabled hentry]
    exact hid
  · rintro ⟨e, he, rfl, hspan, hmessage⟩
    obtain ⟨entry, hentry⟩ := RuleBook.isEnabled_iff.1 hon
    exact ⟨_, List.mem_filterMap.2 ⟨e, he, Option.map_eq_some_iff.2 ⟨entry, hentry, rfl⟩⟩,
      RuleBook.id_of_enabled hentry, hspan, hmessage⟩

end Suppression

namespace Checker

open Suppression

variable {config : Config} {c : Checker}

theorem entries_ne_nil (hc : ofConfig config = .ok c) : c.book.entries ≠ [] := by
  intro hnil
  have hrules := ofConfig_rules hc
  rw [hnil] at hrules
  cases hrules

/-- All that a report has to tell, before it is put in order and freed of repetitions. -/
def active (c : Checker) (source : Source) (outcomes : List (RuleEntry × Outcome)) : List Diagnostic :=
  let resolved := resolve c.book source.path (c.directives.directives source)
  (split resolved.1 (c.raw source outcomes)).1 ++ Suppression.diagnostics c.book source.path resolved.2

theorem active_exact (hc : ofConfig config = .ok c) (polls : Polls) (source : Source) :
    ∀ d ∈ c.active source (c.outcomes polls (Analysis.of source)), source.Exact d.span := by
  intro d hd
  obtain ⟨d', hd', heq⟩ := Diagnostic.exists_mem_aggregate hd
  have hspan : d'.span = d.span := congrArg Prod.snd heq
  rw [← hspan]
  exact report_exact hc (List.mem_append_left _ hd')

theorem active_unknown (hc : ofConfig config = .ok c) (hon : c.book.isEnabled unknownRuleId = true) (polls : Polls)
    (source : Source) {span : Span} {message : String} :
    (∃ x ∈ c.active source (c.outcomes polls (Analysis.of source)),
      x.ruleId = unknownRuleId ∧ x.span = span ∧ x.message = message) ↔
      message ∈ unknownMessages c.book (c.directives.directives source) span := by
  rw [← mem_errors_unknown (entries_ne_nil hc) source.path, ← exists_mem_diagnostics hon source.path]
  constructor
  · rintro ⟨x, hx, hid, hspan, hmessage⟩
    rcases List.mem_append.1 hx with hx | hx
    · have hrule := raw_ofDirective hc polls source x (mem_split_fst.1 hx).1
      rw [Diagnostic.ofDirective, hid] at hrule
      exact absurd hrule (by decide)
    · exact ⟨x, hx, hid, hspan, hmessage⟩
  · rintro ⟨x, hx, hrest⟩
    exact ⟨x, List.mem_append_right _ hx, hrest⟩

theorem report_unknown (hc : ofConfig config = .ok c) (hon : c.book.isEnabled unknownRuleId = true) (polls : Polls)
    (source : Source) (span : Span) (message : String) :
    (∃ x ∈ (c.report source (c.outcomes polls (Analysis.of source))).diagnostics,
      x.ruleId = unknownRuleId ∧ x.span = span ∧ x.message = message) ↔
      message ∈ unknownMessages c.book (c.directives.directives source) span ∧
        ∀ other ∈ unknownMessages c.book (c.directives.directives source) span, message ≤ other := by
  change (∃ x ∈ Diagnostic.aggregate (c.active source (c.outcomes polls (Analysis.of source))), _) ↔ _
  have hexact := active_exact hc polls source
  have hfinding {x y : Diagnostic} (hx : x.ruleId = unknownRuleId) (hy : y.ruleId = unknownRuleId)
      (hxy : x.span = y.span) : x.finding = y.finding := by
    rw [Diagnostic.finding, Diagnostic.finding, hx, hy, hxy]
  constructor
  · rintro ⟨x, hx, hid, rfl, rfl⟩
    have hactive := Diagnostic.mem_of_mem_aggregate hx
    refine ⟨(active_unknown hc hon polls source).1 ⟨x, hactive, hid, rfl, rfl⟩, fun other hother ↦ ?_⟩
    obtain ⟨y, hy, hyid, hyspan, rfl⟩ := (active_unknown hc hon polls source).2 hother
    exact Diagnostic.aggregate_least hexact hx hy (hfinding hid hyid hyspan.symm)
  · rintro ⟨hmessage, hleast⟩
    obtain ⟨y, hy, hyid, rfl, rfl⟩ := (active_unknown hc hon polls source).2 hmessage
    obtain ⟨x, hx, hxy⟩ := Diagnostic.exists_mem_aggregate hy
    obtain ⟨hxid, hxspan⟩ := Prod.ext_iff.1 hxy
    have hid : x.ruleId = unknownRuleId := hxid.trans hyid
    have hother := (active_unknown hc hon polls source).1
      ⟨x, Diagnostic.mem_of_mem_aggregate hx, hid, hxspan, rfl⟩
    have hle := Diagnostic.aggregate_least hexact hx hy hxy
    exact ⟨x, hx, hid, hxspan, String.le_antisymm hle (hleast _ hother)⟩

/-- Of the unknown filters at one place a report tells exactly the one whose message is the least. -/
theorem unknown_filters_least (hc : ofConfig config = .ok c) (hon : c.book.isEnabled unknownRuleId = true)
    (polls : Polls) (source : Source) :
    if polls.start || polls.finish then (c.checkPolled polls source).1 = none
    else ∃ report, (c.checkPolled polls source).1 = some report ∧ ∀ span message,
      (∃ x ∈ report.diagnostics, x.ruleId = unknownRuleId ∧ x.span = span ∧ x.message = message) ↔
        message ∈ unknownMessages c.book (c.directives.directives source) span ∧
          ∀ other ∈ unknownMessages c.book (c.directives.directives source) span, message ≤ other := by
  rw [checkPolled_eq hc]
  split
  · rfl
  · exact ⟨_, rfl, report_unknown hc hon polls source⟩

theorem unknown_filters_least_two :
    ∃ c source report, ofConfig {} = .ok c ∧ c.book.isEnabled unknownRuleId = true ∧
      source = ⟨"a.c", Text.bytesOf "// cstylecheck:ignore NO.B, NO.A"⟩ ∧
      (c.checkPolled (.constant false) source).1 = some report ∧
      unknownMessages c.book (c.directives.directives source) ⟨3, 32, 1, 4, 1, 33⟩ =
        ["suppression names unknown rule \"NO.B\"", "suppression names unknown rule \"NO.A\""] ∧
      ∀ span message,
        (∃ x ∈ report.diagnostics, x.ruleId = unknownRuleId ∧ x.span = span ∧ x.message = message) ↔
          message ∈ unknownMessages c.book (c.directives.directives source) span ∧
            ∀ other ∈ unknownMessages c.book (c.directives.directives source) span, message ≤ other := by
  have hc : ofConfig {} = .ok _ := rfl
  have hon : RuleBook.isEnabled (RuleBook.builtin.applyAll []) unknownRuleId = true := by decide +kernel
  obtain ⟨report, hreport, hexactly⟩ :=
    unknown_filters_least hc hon (.constant false) ⟨"a.c", Text.bytesOf "// cstylecheck:ignore NO.B, NO.A"⟩
  exact ⟨_, _, report, hc, hon, rfl, hreport, by decide +kernel, hexactly⟩

/-- The filter `NO.B` is unknown, but nothing in the report names it. -/
theorem unknown_filter_untold :
    ∃ c source report, ofConfig {} = .ok c ∧ c.book.isEnabled unknownRuleId = true ∧
      source = ⟨"a.c", Text.bytesOf "// cstylecheck:ignore NO.B, NO.A"⟩ ∧
      (c.checkPolled (.constant false) source).1 = some report ∧
      (∃ d ∈ c.directives.directives source, "NO.B" ∈ strangers c.book d) ∧
      ∀ x ∈ report.diagnostics, x.ruleId = unknownRuleId →
        x.message = (SuppressionFault.unknownRule "NO.A").message := by
  have hc : ofConfig {} = .ok _ := rfl
  have hon : RuleBook.isEnabled (RuleBook.builtin.applyAll []) unknownRuleId = true := by decide +kernel
  -- There is one directive, and both of its filters are unknown.
  obtain ⟨hne, hall⟩ : DirectiveSyntax.directives ⟨DirectiveSyntax.directivePattern (Text.trim "cstylecheck")⟩
      ⟨"a.c", Text.bytesOf "// cstylecheck:ignore NO.B, NO.A"⟩ ≠ [] ∧ ∀ d ∈ DirectiveSyntax.directives
      ⟨DirectiveSyntax.directivePattern (Text.trim "cstylecheck")⟩
      ⟨"a.c", Text.bytesOf "// cstylecheck:ignore NO.B, NO.A"⟩,
        strangers (RuleBook.builtin.applyAll []) d = ["NO.B", "NO.A"] := by
    decide +kernel
  obtain ⟨first, hfirst⟩ := List.exists_mem_of_ne_nil _ hne
  refine ⟨_, ⟨"a.c", Text.bytesOf "// cstylecheck:ignore NO.B, NO.A"⟩, _, hc, hon, rfl, checkPolled_eq hc,
    ⟨first, hfirst, (hall first hfirst).symm ▸ List.mem_cons_self⟩, fun x hx hid ↦ ?_⟩
  obtain ⟨hmem, hleast⟩ := (report_unknown hc hon _ _ x.span x.message).1 ⟨x, hx, hid, rfl, rfl⟩
  obtain ⟨d, hd, hspan, f, hf, hmessage⟩ := mem_unknownMessages.1 hmem
  have hstrangers := hall d hd
  rw [hstrangers] at hf
  rcases List.mem_cons.1 hf with rfl | hf
  · have hle := hleast _ (mem_unknownMessages.2 ⟨d, hd, hspan, "NO.A", by rw [hstrangers]; simp, rfl⟩)
    rw [← hmessage] at hle
    exact absurd hle (by decide +kernel)
  · rw [← hmessage, List.mem_singleton.1 hf]

end Checker

end CodeStyle
