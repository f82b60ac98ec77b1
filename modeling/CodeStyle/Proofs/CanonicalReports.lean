import CodeStyle.Proofs.UnknownFilters
import Mathlib.Data.List.Perm.Subperm

/-!
The findings of a report as a normal form. Whatever findings of one file are put in order, what is kept is
one finding for each rule and span, the one with the least message. It is in strict order, so that putting
it in order again changes nothing, and so that it hardly depends on the order in which the findings came.
-/

namespace CodeStyle.Diagnostic

variable {a b d x : Diagnostic} {ds es : List Diagnostic} {s : Source}

/-- Before another finding by line, then by column, then by rule, then by end. -/
def ListedBefore (a b : Diagnostic) : Prop :=
  a.line < b.line ∨ a.line = b.line ∧ (a.column < b.column ∨ a.column = b.column ∧
    (a.ruleId < b.ruleId ∨ a.ruleId = b.ruleId ∧ a.span.endByte < b.span.endByte))

theorem Precedes.listedBefore (ha : s.Exact a.span) (hb : s.Exact b.span) (h : a.Precedes b) :
    a.ListedBefore b := by
  rcases h with hstart | ⟨hstart, hrest⟩
  · rcases ha.start_before hb hstart with hline | ⟨hline, hcolumn⟩
    · exact .inl hline
    · exact .inr ⟨hline, .inl hcolumn⟩
  · obtain ⟨hline, hcolumn⟩ := ha.start_congr hb hstart
    exact .inr ⟨hline, .inr ⟨hcolumn, hrest⟩⟩

theorem Precedes.asymm (h : a.Precedes b) : ¬b.Precedes a :=
  fun h' ↦ (h.trans h').finding_ne rfl

theorem dropRepeated_sublist (ds : List Diagnostic) : (dropRepeated ds).Sublist ds := by
  fun_induction dropRepeated ds with
  | case1 a b rest _ ih => exact ih.trans ((List.sublist_cons_self b rest).cons_cons a)
  | case2 a b rest _ ih => exact ih.cons_cons a
  | case3 => exact .refl _

theorem aggregate_subperm (ds : List Diagnostic) : (aggregate ds).Subperm ds :=
  (dropRepeated_sublist _).subperm.trans (List.mergeSort_perm ds _).subperm

theorem dropRepeated_of_pairwise (h : ds.Pairwise fun a b ↦ a.finding ≠ b.finding) : dropRepeated ds = ds := by
  fun_induction dropRepeated ds with
  | case1 a b rest hab _ => exact absurd (sameFinding_iff.1 hab) (List.rel_of_pairwise_cons h List.mem_cons_self)
  | case2 a b rest _ ih => rw [ih (List.pairwise_cons.1 h).2]
  | case3 => rfl

/-- What has been put in order stays as it is. -/
theorem aggregate_of_pairwise (hle : ds.Pairwise fun a b ↦ (a.order b).isLE = true)
    (hne : ds.Pairwise fun a b ↦ a.finding ≠ b.finding) : aggregate ds = ds := by
  rw [aggregate, List.mergeSort_of_pairwise hle, dropRepeated_of_pairwise hne]

theorem aggregate_sorted (ds : List Diagnostic) :
    (aggregate ds).Pairwise fun a b ↦ (a.order b).isLE = true :=
  (sorted_mergeSort order ds).sublist (dropRepeated_sublist _)

theorem aggregate_findings_nodup (h : ∀ d ∈ ds, s.Exact d.span) : ((aggregate ds).map finding).Nodup :=
  List.pairwise_map.2 ((aggregate_pairwise h).imp Precedes.finding_ne)

theorem mem_findings_aggregate {f : String × Span} :
    f ∈ (aggregate ds).map finding ↔ f ∈ ds.map finding := by
  constructor
  · intro h
    obtain ⟨d, hd, rfl⟩ := List.mem_map.1 h
    exact List.mem_map_of_mem (mem_of_mem_aggregate hd)
  · intro h
    obtain ⟨d, hd, rfl⟩ := List.mem_map.1 h
    obtain ⟨d', hd', heq⟩ := exists_mem_aggregate hd
    exact List.mem_map.2 ⟨d', hd', heq⟩

/-- Findings that are told apart by rule, span and message. -/
def Told (ds : List Diagnostic) : Prop :=
  ∀ a ∈ ds, ∀ b ∈ ds, a.finding = b.finding → a.message = b.message → a = b

theorem mem_aggregate_iff (hexact : ∀ d ∈ ds, s.Exact d.span) (htold : Told ds) :
    x ∈ aggregate ds ↔ x ∈ ds ∧ ∀ d ∈ ds, x.finding = d.finding → x.message ≤ d.message := by
  constructor
  · intro hx
    exact ⟨mem_of_mem_aggregate hx, fun d hd h ↦ aggregate_least hexact hx hd h⟩
  · rintro ⟨hx, hleast⟩
    obtain ⟨x', hx', hsame⟩ := exists_mem_aggregate hx
    have hmem := mem_of_mem_aggregate hx'
    have hmessage := String.le_antisymm (aggregate_least hexact hx' hx hsame) (hleast x' hmem hsame.symm)
    rwa [← htold x' hmem x hx hsame hmessage]

/-- Two orders of the same findings have the same normal form: its members do not depend on the order, and
there is only one strict order of them. -/
theorem aggregate_perm (hexact : ∀ d ∈ ds, s.Exact d.span) (htold : Told ds) (hperm : es.Perm ds) :
    aggregate es = aggregate ds := by
  have hexact' : ∀ d ∈ es, s.Exact d.span := fun d hd ↦ hexact d (hperm.mem_iff.1 hd)
  have htold' : Told es := fun a ha b hb ↦ htold a (hperm.mem_iff.1 ha) b (hperm.mem_iff.1 hb)
  have hmem (x : Diagnostic) : x ∈ aggregate es ↔ x ∈ aggregate ds := by
    simp only [mem_aggregate_iff hexact htold, mem_aggregate_iff hexact' htold', hperm.mem_iff]
  have hsame : (aggregate es).Perm (aggregate ds) :=
    (List.perm_ext_iff_of_nodup (aggregate_findings_nodup hexact').of_map
      (aggregate_findings_nodup hexact).of_map).2 hmem
  refine List.Perm.eq_of_pairwise ?_ (aggregate_pairwise hexact') (aggregate_pairwise hexact) hsame
  intro a b _ _ hab hba
  exact absurd hba hab.asymm

/-- Of the findings of one file, putting them in order keeps one for each rule and span, with the least message,
in strict order. Doing so again changes nothing, and where findings are told apart by rule, span and message
their order does not matter. -/
theorem aggregate_canonical (s : Source) (ds : List Diagnostic)
    (h : ∀ d ∈ ds, ∃ start stop, d.span = s.spanFor start stop) :
    (aggregate ds).Subperm ds ∧
    (∀ f ∈ ds.map finding, ((aggregate ds).map finding).count f = 1) ∧
    (∀ x ∈ aggregate ds, ∀ d ∈ ds, x.finding = d.finding → x.message ≤ d.message) ∧
    (aggregate ds).Pairwise ListedBefore ∧
    aggregate (aggregate ds) = aggregate ds ∧
    (Told ds → ∀ es, es.Perm ds → aggregate es = aggregate ds) := by
  have hexact : ∀ d ∈ ds, s.Exact d.span := by
    intro d hd
    obtain ⟨start, stop, hspan⟩ := h d hd
    rw [hspan]
    exact s.exact_spanFor start stop
  have hnodup := aggregate_findings_nodup hexact
  refine ⟨aggregate_subperm ds, fun f hf ↦ ?_, fun x hx d hd ↦ aggregate_least hexact hx hd, ?_, ?_, ?_⟩
  · exact List.count_eq_one_of_mem hnodup (mem_findings_aggregate.2 hf)
  · refine (aggregate_pairwise hexact).imp_of_mem fun ha hb hab ↦ ?_
    exact hab.listedBefore (hexact _ (mem_of_mem_aggregate ha)) (hexact _ (mem_of_mem_aggregate hb))
  · exact aggregate_of_pairwise (aggregate_sorted ds) (List.pairwise_map.1 hnodup)
  · exact fun htold es hperm ↦ aggregate_perm hexact htold hperm

/-- Two tabs, the second of which is found twice. -/
theorem aggregate_canonical_repeated :
    ∃ (s : Source) (first second third : Diagnostic), s = ⟨"a.c", [9, 10, 9]⟩ ∧
      first = ⟨"WHITESPACE.TAB", .whitespace, .warning, "a.c", s.spanFor 2 3, "second", none⟩ ∧
      second = ⟨"WHITESPACE.TAB", .whitespace, .warning, "a.c", s.spanFor 0 1, "tab", none⟩ ∧
      third = { first with message := "first" } ∧
      (∀ d ∈ [first, second, third], ∃ start stop, d.span = s.spanFor start stop) ∧
      Told [first, second, third] ∧
      ((aggregate [first, second, third]).map finding).count first.finding = 1 ∧
      (aggregate [first, second, third]).Pairwise ListedBefore ∧
      aggregate [third, first, second] = aggregate [first, second, third] := by
  obtain ⟨s, hs⟩ : ∃ s : Source, s = ⟨"a.c", [9, 10, 9]⟩ := ⟨_, rfl⟩
  obtain ⟨first, hfirst⟩ : ∃ d : Diagnostic,
    d = ⟨"WHITESPACE.TAB", .whitespace, .warning, "a.c", s.spanFor 2 3, "second", none⟩ := ⟨_, rfl⟩
  obtain ⟨second, hsecond⟩ : ∃ d : Diagnostic,
    d = ⟨"WHITESPACE.TAB", .whitespace, .warning, "a.c", s.spanFor 0 1, "tab", none⟩ := ⟨_, rfl⟩
  have hspans : ∀ d ∈ [first, second, { first with message := "first" }],
      ∃ start stop, d.span = s.spanFor start stop := by
    simp only [List.forall_mem_cons, List.not_mem_nil, false_implies, implies_true, and_true]
    exact ⟨⟨2, 3, by rw [hfirst]⟩, ⟨0, 1, by rw [hsecond]⟩, ⟨2, 3, by rw [hfirst]⟩⟩
  have htold : Told [first, second, { first with message := "first" }] := by
    subst hfirst hsecond hs
    unfold Told
    decide +kernel
  obtain ⟨-, hone, -, hordered, -, hperm⟩ := aggregate_canonical s _ hspans
  refine ⟨s, first, second, _, hs, hfirst, hsecond, rfl, hspans, htold, hone _ (by simp), hordered,
    hperm htold _ ?_⟩
  exact (List.perm_append_singleton _ [first, second]).symm

end CodeStyle.Diagnostic
