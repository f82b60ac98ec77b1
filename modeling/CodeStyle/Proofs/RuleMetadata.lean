import CodeStyle.Proofs.ReportKeys
import CodeStyle.Proofs.RuleSettings
import CodeStyle.Report.Sarif

/-!
What a SARIF log says of rules. The rules of a log are collected from the ids of its findings and looked up in the rule
book, and the findings have the severity that their rule had when they were found. Since every finding comes from an
entry of the book and no two entries have one id, the two parts of a log agree.
-/

namespace CodeStyle

namespace RuleBook

variable {b : RuleBook} {e : RuleEntry} {id : String}

/-- The book has the rule of a finding, with the severity of the finding. -/
def Rates (b : RuleBook) (d : Diagnostic) : Prop := ∃ e, b.get? d.ruleId = some e ∧ e.severity = d.severity

theorem id_of_get (h : b.get? id = some e) : e.rule.id = id := by
  simpa using List.find?_some h

theorem get?_of_mem (hn : (b.entries.map fun e ↦ e.rule.id).Nodup) (he : e ∈ b.entries) :
    b.get? e.rule.id = some e := by
  have hreverse : (b.entries.reverse.map fun e ↦ e.rule.id).Nodup := by
    rw [List.map_reverse]
    exact List.nodup_reverse.2 hn
  exact find?_of_nodup hreverse (List.mem_reverse.2 he)

theorem get?_of_enabled (h : b.enabled? id = some e) : b.get? e.rule.id = some e := by
  rw [id_of_enabled h]
  exact (Option.filter_eq_some_iff.1 h).1

end RuleBook

namespace Sarif

variable {x : String} {ids : List String} {ds : List Diagnostic} {b : RuleBook} {r : RunReport}

theorem insertId_eq (id : String) (ids : List String) :
    insertId id ids = (Reading.insertSorted id () (ids.map (·, ()))).map Prod.fst := by
  induction ids with
  | nil => rfl
  | cons y ids ih =>
    rw [insertId, List.map_cons, Reading.insertSorted]
    split
    · simp [Function.comp_def]
    · split
      · rename_i heq
        simp [Function.comp_def, beq_iff_eq.1 heq]
      · rw [ih, List.map_cons]

theorem mem_sortedIds : x ∈ sortedIds ds ↔ x ∈ ds.map Diagnostic.ruleId := by
  induction ds with
  | nil => rfl
  | cons d ds ih =>
    rw [sortedIds, List.foldr_cons, ← sortedIds, insertId_eq, Reading.mem_keys_insertSorted, List.map_map,
      List.map_cons, List.mem_cons, ← ih]
    simp [Function.comp_def]

theorem sortedIds_pairwise (ds : List Diagnostic) : (sortedIds ds).Pairwise (· < ·) := by
  induction ds with
  | nil => exact .nil
  | cons d ds ih =>
    rw [sortedIds, List.foldr_cons, ← sortedIds, insertId_eq]
    refine Reading.keys_insertSorted_pairwise _ _ ?_
    simpa [Function.comp_def] using ih

/-- If the book has all rules of some ids, what it says of them is of rules with these ids. -/
theorem ids_filterMap (h : ∀ id ∈ ids, ∃ e, b.get? id = some e) :
    ((ids.filterMap b.get?).map RuleInfo.of).map RuleInfo.id = ids := by
  induction ids with
  | nil => rfl
  | cons id ids ih =>
    rw [List.forall_mem_cons] at h
    obtain ⟨⟨e, he⟩, hrest⟩ := h
    rw [List.filterMap_cons_some he, List.map_cons, List.map_cons, ih hrest]
    exact congrArg (· :: ids) (RuleBook.id_of_get he)

/-- Lines and columns count from one, and the start is not behind the end. -/
structure Region.Proper (r : Region) : Prop where
  line : 1 ≤ r.startLine
  column : 1 ≤ r.startColumn
  ordered : r.startLine < r.endLine ∨ r.startLine = r.endLine ∧ r.startColumn ≤ r.endColumn

/-- A result that gives the rule, the severity and the place of a finding. -/
structure Result.Gives (d : Diagnostic) (x : Result) : Prop where
  ruleId : x.ruleId = d.ruleId
  level : x.level = levelOf d.severity
  region : x.region = ⟨d.span.startLine, d.span.startCol, d.span.endLine, d.span.endCol⟩

/-- A log of these findings in their order, with the rules that they are of. -/
structure Log.Describes (ds : List Diagnostic) (log : Log) : Prop where
  results : List.Forall₂ Result.Gives ds log.results
  increasing : (log.rules.map RuleInfo.id).Pairwise (· < ·)
  occurring : ∀ id, id ∈ log.rules.map RuleInfo.id ↔ id ∈ log.results.map Result.ruleId
  levels : ∀ rule ∈ log.rules, ∀ x ∈ log.results, x.ruleId = rule.id → x.level = rule.level
  regions : ∀ x ∈ log.results, x.region.Proper

theorem region_of_exact {s : Source} {span : Span} (h : s.Exact span) :
    Region.of span = ⟨span.startLine, span.startCol, span.endLine, span.endCol⟩ ∧ (Region.of span).Proper := by
  have hl := h.locates
  have hregion : Region.of span = ⟨span.startLine, span.startCol, span.endLine, span.endCol⟩ := by
    rw [Region.of, Nat.max_eq_left hl.lines.1, Nat.max_eq_left hl.columns.1, Nat.max_eq_left hl.lines.2,
      Nat.max_eq_left hl.columns.2]
  refine ⟨hregion, ?_⟩
  rw [hregion]
  refine ⟨hl.lines.1, hl.columns.1, ?_⟩
  rcases Nat.eq_or_lt_of_le hl.ordered with heq | hlt
  · have hsame : (⟨span.startLine, span.startCol⟩ : Point) = ⟨span.endLine, span.endCol⟩ := by
      rw [hl.start, hl.stop, heq]
    obtain ⟨hline, hcolumn⟩ := Point.mk.inj hsame
    exact .inr ⟨hline, hcolumn.le⟩
  · have hbefore := s.placeOf_before hlt
    rw [← hl.start, ← hl.stop] at hbefore
    exact hbefore.imp_right (And.imp_right Nat.le_of_lt)

/-- Where the book rates all findings and files locate them, their log describes them. -/
theorem describes_of (base : String) (hrated : ∀ d ∈ r.diagnostics, b.Rates d)
    (hexact : ∀ d ∈ r.diagnostics, ∃ s : Source, s.Exact d.span) : (Log.of base r b).Describes r.diagnostics := by
  have hids : (Log.of base r b).rules.map RuleInfo.id = sortedIds r.diagnostics := by
    refine ids_filterMap fun id hid ↦ ?_
    obtain ⟨d, hd, rfl⟩ := List.mem_map.1 (mem_sortedIds.1 hid)
    exact (hrated d hd).imp fun e ↦ And.left
  constructor
  case results =>
    refine List.forall₂_map_right_iff.2 (List.forall₂_same.2 fun d hd ↦ ?_)
    obtain ⟨s, hs⟩ := hexact d hd
    exact ⟨rfl, rfl, (region_of_exact hs).1⟩
  case increasing =>
    rw [hids]
    exact sortedIds_pairwise _
  case occurring =>
    intro id
    rw [hids, mem_sortedIds, Log.of, List.map_map]
    rfl
  case levels =>
    intro rule hrule x hx hid
    obtain ⟨e, he, rfl⟩ := List.mem_map.1 hrule
    obtain ⟨id, -, hget⟩ := List.mem_filterMap.1 he
    obtain ⟨d, hd, rfl⟩ := List.mem_map.1 hx
    obtain ⟨e', hget', hseverity⟩ := hrated d hd
    -- both are looked up by one id, and so they are one entry
    have hsame : e = e' := by
      rw [← RuleBook.id_of_get hget] at hget
      have hd : d.ruleId = e.rule.id := hid
      rw [hd, hget] at hget'
      exact Option.some.inj hget'
    subst hsame
    exact congrArg levelOf hseverity.symm
  case regions =>
    intro x hx
    obtain ⟨d, hd, rfl⟩ := List.mem_map.1 hx
    obtain ⟨s, hs⟩ := hexact d hd
    exact (region_of_exact hs).2

end Sarif

namespace Checker

variable {config : Config} {c : Checker} {source : Source} {polls : Polls} {d : Diagnostic}

/-- A finding has the id and the severity of an entry, which is one that was evaluated or one that was looked up. -/
theorem report_entry {outcomes : List (RuleEntry × Outcome)} (h : d ∈ (c.report source outcomes).diagnostics) :
    ∃ e, d.ruleId = e.rule.id ∧ d.severity = e.severity ∧
      ((∃ o, (e, o) ∈ outcomes) ∨ ∃ id, c.book.enabled? id = some e) := by
  rcases List.mem_append.1 (Diagnostic.mem_of_mem_aggregate h) with h | h
  · obtain ⟨⟨e, o⟩, he, h⟩ := List.mem_flatMap.1 (List.mem_filter.1 h).1
    rcases List.mem_append.1 h with h | h
    · obtain ⟨f, -, rfl⟩ := List.mem_map.1 h
      exact ⟨e, rfl, rfl, .inl ⟨o, he⟩⟩
    · obtain ⟨f, -, h⟩ := List.mem_flatMap.1 h
      obtain ⟨engine, hengine, rfl⟩ := List.mem_map.1 h
      exact ⟨engine, rfl, rfl, .inr ⟨_, Option.mem_toList.1 hengine⟩⟩
  · obtain ⟨fault, -, h⟩ := List.mem_filterMap.1 h
    obtain ⟨e, he, rfl⟩ := Option.map_eq_some_iff.1 h
    exact ⟨e, rfl, rfl, .inr ⟨_, he⟩⟩

theorem report_rated (hc : ofConfig config = .ok c)
    (h : d ∈ (c.report source (c.outcomes polls (Analysis.of source))).diagnostics) : c.book.Rates d := by
  obtain ⟨e, hid, hseverity, he⟩ := report_entry h
  refine ⟨e, ?_, hseverity.symm⟩
  rw [hid]
  rcases he with ⟨o, ho⟩ | ⟨id, he⟩
  · obtain ⟨⟨e', k⟩, hk, heq⟩ := List.mem_map.1 ho
    cases heq
    exact RuleBook.get?_of_mem (ofConfig_ids_nodup hc) (List.mem_filter.1 (evaluated_mem hk)).1
  · exact RuleBook.get?_of_enabled he

theorem Gave.describes (hc : ofConfig config = .ok c) {sources : List Source} {results : List (Option FileReport)}
    (h : c.Gave sources results) (cancelled : Bool) (base : String) :
    (Sarif.Log.of base (runReport results cancelled) c.book).Describes (runReport results cancelled).diagnostics := by
  have hmade (d : Diagnostic) (hd : d ∈ (runReport results cancelled).diagnostics) :
      ∃ source polls, d ∈ (c.report source (c.outcomes polls (Analysis.of source))).diagnostics := by
    obtain ⟨r, hr, hd⟩ := List.mem_flatMap.1 hd
    obtain ⟨source, -, polls, rfl⟩ := h.report_of_mem hc (by simpa using List.mem_filterMap.1 hr)
    exact ⟨source, polls, hd⟩
  refine Sarif.describes_of base (fun d hd ↦ ?_) fun d hd ↦ ?_
  · obtain ⟨source, polls, hd⟩ := hmade d hd
    exact report_rated hc hd
  · obtain ⟨source, polls, hd⟩ := hmade d hd
    exact ⟨source, report_exact hc (List.mem_append_left _ hd)⟩

end Checker

end CodeStyle
