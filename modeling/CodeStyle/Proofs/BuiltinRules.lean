import CodeStyle.Proofs.RuleOutcomes

/-!
The built-in rules one by one. Each of them gives a sound outcome for every file: it never fails, and
what it finds lies exactly in the file. The rules on tokens report spans of tokens; the others report
spans that the line table gives to the offsets they compute.
-/

namespace CodeStyle

namespace RuleInput

/-- An outcome that is found token by token, at the tokens themselves. -/
def AtFoci (r : RuleInput) (o : Outcome) : Prop :=
  ∃ check : Focus → Option Finding, o = .found (r.foci.filterMap check) ∧
    ∀ f x, check f = some x → x.span = f.token.span

variable {r : RuleInput} {s : Source} (hr : r.file = Analysis.of s)

include hr

omit hr in
theorem untilCancelled_sublist {α : Type} (r : RuleInput) (items : List α) :
    (r.untilCancelled items).Sublist items := by
  have h : (r.untilCancelled items).Sublist (items.zipIdx.map Prod.fst) := (List.takeWhile_sublist _).map Prod.fst
  rwa [List.zipIdx_map_fst] at h

theorem exact_spanFor (start stop : Nat) : s.Exact (r.source.spanFor start stop) := by
  rw [source_eq hr]
  exact Source.exact_spanFor s start stop

theorem exact_lineSpan {number : Nat} {span : Span} (h : r.source.lineSpan? number = some span) :
    s.Exact span := by
  obtain ⟨⟨start, stop⟩, -, rfl⟩ := Option.map_eq_some_iff.1 h
  exact exact_spanFor hr start stop

theorem exact_mem_foci {f : Focus} (hf : f ∈ r.foci) : s.Exact f.token.span :=
  exact_focus hr (Array.mem_toList_iff.1 hf)

theorem AtFoci.sound {o : Outcome} (h : r.AtFoci o) : o.Sound s := by
  obtain ⟨check, rfl, hspan⟩ := h
  refine Outcome.found_filterMap fun f hf x hx ↦ ?_
  rw [hspan f x hx]
  exact exact_mem_foci hr hf

theorem index_eq {i : Nat} {f : Focus} (hf : r.file.foci[i]? = some f) : f.index = i := by
  have hall : r.file.foci.toList = Focus.all s.tokens := foci_eq hr
  rw [← Array.getElem?_toList, hall] at hf
  rw [Focus.all_consecutive s.tokens i f hf, Nat.zero_add]

/-- The body of a function has tokens, and they are tokens of the file. -/
theorem body_range {fn : FunctionFact} (hfn : fn.Sound r.file.foci r.file.visits) {body : Tree}
    (hb : fn.body = some body) : body.start < body.stop ∧ body.stop ≤ s.tokens.length := by
  have hfind := hfn.body ▸ hb
  have hnode : fn.node.tree ∈ r.file.preorder := List.mem_map_of_mem hfn.node
  refine node_range hr (Tree.child_mem_preorder hnode (List.mem_of_find?_eq_some hfind)) ?_
  have hk := List.find?_some hfind
  simp only [beq_iff_eq] at hk
  simp [hk]

end RuleInput

namespace Rule

open RuleInput

variable {r : RuleInput} {s : Source} (hr : r.file = Analysis.of s)

section Lexical

include hr

theorem report_sound (fault : Fault) : (Lexical.report fault r).Sound s := by
  refine Outcome.found_map fun e he ↦ ?_
  have hmem := List.mem_of_mem_filter he
  rw [hr] at hmem
  exact Source.exact_lexError s e hmem

end Lexical

section Spacing

open Spacing

theorem findingAt_span {owner : Owner} {f : Focus} {parens : Nat} {kind : OperatorClass} {x : Finding}
    (hx : findingAt owner f parens kind = some x) : x.span = f.token.span := by
  simp only [findingAt, Option.ite_none_left_eq_some, Option.map_eq_some_iff] at hx
  obtain ⟨-, _, -, rfl⟩ := hx
  rfl

theorem findings_sublist (owner : Owner) (d : Depth) (foci : List Focus) :
    ((findings owner d foci).map Finding.span).Sublist (foci.map (·.token.span)) := by
  fun_induction findings owner d foci with
  | case1 => exact .slnil
  | case2 _ _ _ _ ih | case3 _ _ _ _ _ _ ih | case4 _ _ _ _ _ _ _ _ ih => exact ih.cons _
  | case5 d f rest _ d' kind _ _ ih =>
    rw [List.map_append, List.map_cons]
    cases hx : findingAt owner f d'.parens kind with
    | none => exact ih.cons _
    | some x => rw [← findingAt_span hx]; exact ih.cons_cons _

theorem multipleSpaces_atFoci (r : RuleInput) : r.AtFoci (multipleSpaces r) := by
  refine ⟨_, rfl, fun f x hx ↦ ?_⟩
  simp only [multipleSpacesAt, Option.ite_none_right_eq_some, Option.some.injEq] at hx
  rw [← hx.2]

theorem parenSpacing_atFoci (r : RuleInput) : r.AtFoci (parenSpacing r) := by
  refine ⟨_, rfl, fun f x hx ↦ ?_⟩
  simp only [Option.ite_none_left_eq_some, Option.some.injEq] at hx
  rw [← hx.2]

theorem keywordSpacing_atFoci (r : RuleInput) : r.AtFoci (keywordSpacing r) := by
  refine ⟨_, rfl, fun f x hx ↦ ?_⟩
  simp only [Option.ite_none_right_eq_some, Option.some.injEq] at hx
  rw [← hx.2]

include hr

theorem spacing_sound (owner : Owner) : (Spacing.check owner r).Sound s := by
  refine Outcome.found_sound fun x hx ↦ ?_
  obtain ⟨f, hf, hspan⟩ := List.mem_map.1 ((findings_sublist owner ⟨0, 0⟩ r.foci).subset (List.mem_map_of_mem hx))
  rw [← hspan]
  exact exact_mem_foci hr hf

end Spacing

section Layout

open Layout

theorem firstOnLines_sublist (seen : List Nat) (foci : List Focus) : (firstOnLines seen foci).Sublist foci := by
  fun_induction firstOnLines seen foci with
  | case1 => exact .slnil
  | case2 _ _ _ _ ih => exact ih.cons _
  | case3 _ _ _ _ ih => exact ih.cons_cons _

theorem braceCloseAt_span {v : Visit} {opener close : Focus} {x : Finding}
    (hx : x ∈ braceCloseAt v opener close) : x.span = close.token.span := by
  unfold braceCloseAt at hx
  split at hx
  · cases hx
  · split at hx
    · cases List.mem_singleton.1 hx
      rfl
    · split at hx
      · cases hx
      · cases List.mem_singleton.1 hx
        rfl

theorem indentationAt_span {width : Nat} {f : Focus} {x : Finding} (hx : indentationAt width f = some x) :
    ∃ blanks, f.before.head? = some blanks ∧ x.span = blanks.span := by
  obtain ⟨blanks, hb, hx⟩ := Option.bind_eq_some_iff.1 hx
  simp only [Option.ite_none_right_eq_some, Option.some.injEq] at hx
  exact ⟨blanks, (Option.filter_eq_some_iff.1 hb).1, by rw [← hx.2]⟩

theorem braceOpenLine_atFoci (r : RuleInput) : r.AtFoci (braceOpenLine r) := by
  refine ⟨_, rfl, fun f x hx ↦ ?_⟩
  simp only [Option.ite_none_left_eq_some] at hx
  obtain ⟨-, hx⟩ := hx
  split at hx
  · cases hx
    rfl
  · simp only [Option.ite_none_right_eq_some, Option.some.injEq] at hx
    rw [← hx.2]

include hr

theorem lineLength_sound : (lineLength r).Sound s := by
  refine Outcome.found_filterMap fun range _ x hx ↦ ?_
  simp only [Option.mem_def, Option.ite_none_right_eq_some, Option.some.injEq] at hx
  rw [← hx.2]
  exact exact_spanFor hr _ _

theorem tab_sound : (tab r).Sound s := by
  refine Outcome.found_flatMap fun t _ x hx ↦ ?_
  obtain ⟨range, -, rfl⟩ := List.mem_map.1 hx
  exact exact_spanFor hr _ _

theorem trailing_sound : (trailing r).Sound s := by
  refine Outcome.found_filterMap fun range _ x hx ↦ ?_
  simp only [Option.mem_def, Option.ite_none_right_eq_some, Option.some.injEq] at hx
  rw [← hx.2]
  exact exact_spanFor hr _ _

theorem braceCloseLine_sound : (braceCloseLine r).Sound s := by
  refine Outcome.each_sound fun v hv ↦ ?_
  obtain ⟨hmem, hb⟩ := List.mem_filter.1 hv
  have hk : v.tree.kind = .braceBlock := by
    simp only [isBlock, Bool.and_eq_true, beq_iff_eq] at hb
    exact hb.1.1
  have ht : v.tree ∈ r.file.preorder := List.mem_map_of_mem ((untilCancelled_sublist r _).subset hmem)
  obtain ⟨hlt, hle⟩ := node_range hr ht (by simp [hk])
  refine withToken_sound hr (by omega) fun opener _ ↦ withToken_sound hr (by omega) fun close hc ↦ ?_
  refine Outcome.found_sound fun x hx ↦ ?_
  rw [braceCloseAt_span hx]
  exact exact_focus hr hc

theorem indentation_sound : (indentation r).Sound s := by
  unfold indentation
  dsimp only
  split
  · exact Outcome.clean_sound
  · refine Outcome.found_filterMap fun f hf x hx ↦ ?_
    have hmem : f ∈ Focus.all s.tokens := by
      rw [← foci_eq hr]
      exact List.mem_of_mem_filter ((firstOnLines_sublist _ _).subset hf)
    obtain ⟨blanks, hb, hspan⟩ := indentationAt_span hx
    rw [hspan]
    exact Source.exact_token (Focus.before_mem hmem blanks (List.mem_of_head? hb))

theorem blankLines_sound : (blankLines r).Sound s := by
  refine Outcome.found_filterMap fun number _ x hx ↦ ?_
  obtain ⟨span, hspan, rfl⟩ := Option.map_eq_some_iff.1 hx
  exact exact_lineSpan hr hspan

theorem finalNewline_sound : (finalNewline r).Sound s := by
  unfold finalNewline
  split
  · exact Outcome.clean_sound
  · exact Outcome.found_one (exact_spanFor hr _ _) _ _

theorem lineEnding_sound : (lineEnding r).Sound s := by
  refine Outcome.found_filterMap fun ending _ x hx ↦ ?_
  obtain ⟨_, -, rfl⟩ := Option.map_eq_some_iff.1 hx
  exact exact_spanFor hr _ _

end Layout

section Structure

open Structure

variable {foci : Array Focus}

theorem withLead_sound {t : Tree} {word : String} (hw : t.leadKeyword foci = some word)
    {check : Focus → Outcome} (h : ∀ f ∈ foci, (check f).Sound s) : (withLead foci t check).Sound s := by
  obtain ⟨f, hf⟩ := Tree.firstCode_of_leadKeyword hw
  rw [withLead, hf]
  exact h f (Tree.firstCode_mem hf)

theorem leads_iff {word : String} {t : Tree} :
    leads foci word t = true ↔ t.leadKeyword foci = some word := by
  simp [leads]

theorem leadKeyword_of_isControl {t : Tree} (ht : t.isControl foci = true) :
    ∃ word, t.leadKeyword foci = some word := by
  simp only [Tree.isControl, Bool.and_eq_true, Option.any_eq_true] at ht
  obtain ⟨-, word, hw, -⟩ := ht
  exact ⟨word, hw⟩

theorem controlStatements_lead {a : Analysis} {v : Visit} (hv : v ∈ controlStatements a) :
    ∃ word, v.tree.leadKeyword a.foci = some word :=
  leadKeyword_of_isControl (List.mem_filter.1 hv).2

theorem chainRest_leads {last : Option Tree} {ts : List Tree} {t : Tree}
    (ht : (chainRest foci last ts).1 = some t) : last = some t ∨ leads foci "else" t = true := by
  fun_induction chainRest foci last ts with
  | case1 => exact .inl ht
  | case2 _ _ _ _ ih => exact ih ht
  | case3 => exact .inl ht
  | case4 _ u _ _ hlead _ ih =>
    rcases ih ht with hu | hu
    · cases hu
      exact .inr (by simpa using hlead)
    · exact .inr hu
  | case5 => cases ht

/-- Every chain that has to be closed ends with a statement that an `else` leads. -/
theorem openChains_leads {ts : List Tree} {t : Tree} (ht : t ∈ openChains foci ts) :
    leads foci "else" t = true := by
  fun_induction openChains foci ts with
  | case1 => cases ht
  | case2 u rest _ ih =>
    rcases List.mem_append.1 ht with ht | ht
    · rcases chainRest_leads (Option.mem_toList.1 ht) with h | h
      · cases h
      · exact h
    · exact ih ht
  | case3 _ _ _ ih => exact ih ht

theorem deepTernaries_sublist (limit : Nat) (levels : TernaryLevels) (tokens : List Token) :
    (deepTernaries limit levels tokens).Sublist tokens := by
  fun_induction deepTernaries limit levels tokens with
  | case1 => exact .slnil
  | case2 _ _ _ _ _ ih => exact ih.cons_cons _
  | case3 _ _ _ _ _ ih => exact ih.cons _

theorem crowded_mem {previous : Option (Tree × Nat)} {ts : List Tree} {t : Token}
    (ht : t ∈ crowded foci previous ts) : ∃ f ∈ foci, t = f.token := by
  fun_induction crowded foci previous ts with
  | case1 => cases ht
  | case2 previous u rest _ first last _ hfirst same ih =>
    rcases List.mem_append.1 ht with ht | ht
    · split at ht
      · exact ⟨first, Tree.firstCode_mem hfirst, List.mem_singleton.1 ht⟩
      · cases ht
    · exact ih ht
  | case3 _ _ _ _ _ ih | case4 _ _ _ _ _ ih | case5 _ _ _ _ _ ih => exact ih ht

include hr

theorem unbalanced_sound : (unbalanced r).Sound s := by
  refine Outcome.found_map fun e he ↦ ?_
  rw [hr] at he
  exact Source.exact_delimiterError s e he

theorem bracesRequired_sound : (bracesRequired r).Sound s := by
  refine Outcome.each_sound fun v hv ↦ ?_
  obtain ⟨word, hw⟩ := controlStatements_lead (List.mem_of_mem_filter hv)
  exact withLead_sound hw fun f hf ↦ Outcome.found_one (exact_focus hr hf) _ _

theorem switchDefault_sound : (switchDefault r).Sound s := by
  refine Outcome.each_sound fun v hv ↦ ?_
  obtain ⟨word, hw⟩ := controlStatements_lead (List.mem_of_mem_filter hv)
  refine withLead_sound hw fun f hf ↦ ?_
  split
  · exact Outcome.clean_sound
  · exact Outcome.found_one (exact_focus hr hf) _ _

theorem elseIfTermination_sound : (elseIfTermination r).Sound s := by
  refine Outcome.each_sound fun t ht ↦ ?_
  obtain ⟨u, -, ht⟩ := List.mem_flatMap.1 ht
  exact withLead_sound (leads_iff.1 (openChains_leads ht)) fun f hf ↦ Outcome.found_one (exact_focus hr hf) _ _

theorem nestingDepth_sound : (nestingDepth r).Sound s := by
  refine Outcome.each_sound fun v hv ↦ ?_
  obtain ⟨word, hw⟩ := controlStatements_lead ((untilCancelled_sublist r _).subset (List.mem_of_mem_filter hv))
  exact withLead_sound hw fun f hf ↦ Outcome.found_one (exact_focus hr hf) _ _

theorem ternaryNesting_sound : (ternaryNesting r).Sound s :=
  Outcome.found_map fun _ ht ↦ exact_token hr ((deepTernaries_sublist _ _ _).subset ht)

theorem functionLength_sound : (functionLength r).Sound s := by
  refine Outcome.each_sound fun fn hfn ↦ ?_
  have h := (facts_sound hr).functions fn hfn
  split
  · exact Outcome.clean_sound
  · rename_i body hb
    obtain ⟨hlt, hle⟩ := body_range hr h (Option.filter_eq_some_iff.1 hb).1
    refine withToken_sound hr (by omega) fun opener _ ↦ withToken_sound hr (by omega) fun close _ ↦ ?_
    dsimp only
    split
    · exact Outcome.found_one (exact_name hr h.name) _ _
    · exact Outcome.clean_sound

theorem fileLength_sound : (fileLength r).Sound s := by
  unfold fileLength
  dsimp only
  split
  · exact Outcome.found_map fun span hspan ↦ exact_lineSpan hr (Option.mem_toList.1 hspan)
  · exact Outcome.clean_sound

theorem oneStatementPerLine_sound : (oneStatementPerLine r).Sound s := by
  refine Outcome.found_map fun t ht ↦ ?_
  obtain ⟨u, -, ht⟩ := List.mem_flatMap.1 ht
  obtain ⟨f, hf, rfl⟩ := crowded_mem ht
  exact exact_focus hr hf

end Structure

section Comments

open Comments

theorem lineDelimiter_exact (t : Token) : ∀ x ∈ lineDelimiter s t, s.Exact x.span := by
  intro x hx
  unfold lineDelimiter at hx
  dsimp only at hx
  split at hx
  · cases hx
  · cases List.mem_singleton.1 hx
    exact Source.exact_spanFor s _ _

theorem blockDelimiters_exact (t : Token) : ∀ x ∈ blockDelimiters s t, s.Exact x.span := by
  intro x hx
  unfold blockDelimiters at hx
  dsimp only at hx
  split at hx
  · cases hx
  · rcases List.mem_append.1 hx with hx | hx <;> split at hx
    · cases hx
    · cases List.mem_singleton.1 hx
      exact Source.exact_spanFor s _ _
    · cases hx
    · cases List.mem_singleton.1 hx
      exact Source.exact_spanFor s _ _

theorem capitalizationAt_exact (t : Token) : ∀ x ∈ capitalizationAt s t, s.Exact x.span := by
  intro x hx
  unfold capitalizationAt at hx
  dsimp only at hx
  split at hx
  · cases hx
  · cases List.mem_singleton.1 hx
    exact Source.exact_spanFor s _ _

include hr

theorem singleLinePlacement_sound : (singleLinePlacement r).Sound s :=
  Outcome.found_map fun _ hf ↦ exact_mem_foci hr (List.mem_of_mem_filter hf)

theorem nested_sound : (nested r).Sound s := by
  refine Outcome.found_flatMap fun t _ x hx ↦ ?_
  obtain ⟨start, -, rfl⟩ := List.mem_map.1 hx
  exact exact_spanFor hr _ _

theorem capitalization_sound : (capitalization r).Sound s := by
  refine Outcome.each_sound fun t ht ↦ ?_
  obtain ⟨hmem, hk⟩ := List.mem_filter.1 ht
  simp only [beq_iff_eq] at hk
  obtain ⟨hlt, hle⟩ := node_range hr hmem (by simp [hk])
  refine withToken_sound hr (by omega) fun f _ ↦ Outcome.found_sound ?_
  rw [source_eq hr]
  exact capitalizationAt_exact f.token

theorem blankLineBefore_sound : (blankLineBefore r).Sound s := by
  refine Outcome.each_sound fun t ht ↦ ?_
  obtain ⟨hmem, hk⟩ := List.mem_filter.1 ht
  simp only [Bool.and_eq_true, beq_iff_eq] at hk
  obtain ⟨hlt, hle⟩ := node_range hr hmem (by simp [hk.1])
  refine withToken_sound hr (by omega) fun first hfirst ↦ ?_
  split
  · exact Outcome.clean_sound
  · refine withToken_sound hr (by omega) fun last hlast ↦ ?_
    exact Outcome.found_one ((exact_focus hr hfirst).join (exact_focus hr hlast)) _ _

theorem delimiterSpacing_sound : (delimiterSpacing r).Sound s := by
  refine Outcome.found_flatMap fun t _ x hx ↦ ?_
  rw [source_eq hr] at hx
  split at hx
  · exact lineDelimiter_exact t x hx
  · exact blockDelimiters_exact t x hx
  · cases hx

end Comments

section Keywords

open Keywords

theorem mem_of_targetOf {fn : FunctionFact} {g : GotoFact} {label : Name}
    (h : targetOf fn g = some label) : label ∈ fn.labels :=
  List.mem_of_find?_eq_some h

include hr

theorem forbid_sound (word : String) : (forbid word r).Sound s :=
  Outcome.found_map fun _ ht ↦ exact_token hr (List.mem_of_mem_filter ht)

theorem gotoBackward_sound : (gotoBackward r).Sound s := by
  refine Outcome.found_flatMap fun fn hfn x hx ↦ ?_
  obtain ⟨g, hg, hx⟩ := List.mem_filterMap.1 hx
  obtain ⟨label, -, rfl⟩ := Option.map_eq_some_iff.1 hx
  exact exact_name hr (((facts_sound hr).functions fn hfn).goto_from hg).1

/-- The node of a label lies where `goto`s look for it. -/
theorem label_node {fn : FunctionFact} (hfn : fn.Sound r.file.foci r.file.visits) {body : Tree}
    (hb : fn.body = some body) {label : Name} (hl : label ∈ fn.labels) :
    ∃ v ∈ bodyVisits fn body, v.tree.kind = .label ∧ v.tree.head.name = some label.token := by
  rw [hfn.labels, hb, Option.map_some, Option.getD_some] at hl
  obtain ⟨t, ht, hk, i, f, hname, hf, rfl⟩ := Facts.mem_labels hl
  have hvisit : t ∈ (bodyVisits fn body).map Visit.tree := by
    rw [bodyVisits, Tree.map_tree_visits]
    exact ht
  obtain ⟨v, hv, rfl⟩ := List.mem_map.1 hvisit
  exact ⟨v, hv, hk, by rw [hname, Name.ofFocus, index_eq hr hf]⟩

theorem gotoScopeAt_sound {fn : FunctionFact} (hfn : fn.Sound r.file.foci r.file.visits) {body : Tree}
    (hb : fn.body = some body) {g : GotoFact} (hg : g ∈ fn.gotos) : (gotoScopeAt fn body g).Sound s := by
  have hspan : s.Exact g.target.span := exact_name hr (hfn.goto_from hg).2
  unfold gotoScopeAt
  dsimp only
  split
  · exact Outcome.found_one hspan _ _
  · rename_i label hlabel
    obtain ⟨v, hv, hk, hname⟩ := label_node hr hfn hb (mem_of_targetOf hlabel)
    split
    · rename_i hnone
      have := List.find?_eq_none.1 hnone v hv
      simp [hk, hname] at this
    · split
      · exact Outcome.clean_sound
      · split
        · exact Outcome.clean_sound
        · exact Outcome.found_one hspan _ _

theorem gotoScope_sound : (gotoScope r).Sound s := by
  refine Outcome.each_sound fun fn hfn ↦ ?_
  split
  · exact Outcome.clean_sound
  · rename_i body hb
    exact Outcome.each_sound fun g hg ↦ gotoScopeAt_sound hr ((facts_sound hr).functions fn hfn) hb hg

theorem labelName_sound : (labelName r).Sound s := by
  refine Outcome.found_flatMap fun fn hfn x hx ↦ ?_
  obtain ⟨label, hl, hx⟩ := List.mem_filterMap.1 hx
  simp only [labelNameAt, Option.ite_none_left_eq_some, Option.some.injEq] at hx
  rw [← hx.2]
  exact exact_name hr (((facts_sound hr).functions fn hfn).label_from hl)

end Keywords

section Naming

open Naming

include hr

theorem exact_macro {m : MacroFact} (hm : m ∈ r.facts.macros) : s.Exact m.span := by
  obtain ⟨start, stop, hspan⟩ := (facts_sound hr).macros m hm
  rw [hspan]
  exact Source.exact_spanFor s start stop

theorem exact_typeName {t : TypeFact} (ht : t ∈ r.facts.types) {n : Name} (hn : t.typeName = some n) :
    s.Exact n.span :=
  exact_name hr (((facts_sound hr).types t ht).2 n hn)

theorem exact_tag {t : TypeFact} (ht : t ∈ r.facts.types) {n : Name} (hn : t.tag = some n) :
    s.Exact n.span :=
  exact_name hr (((facts_sound hr).types t ht).1 n hn)

theorem exact_object {v : VariableFact} (hv : v ∈ r.facts.objects) : s.Exact v.name.span :=
  exact_name hr ((facts_sound hr).objects v hv)

theorem exact_function {fn : FunctionFact} (hfn : fn ∈ r.facts.functions) : s.Exact fn.name.span :=
  exact_name hr ((facts_sound hr).functions fn hfn).name

theorem typeSuffix_sound : (typeSuffix r).Sound s := by
  refine Outcome.found_filterMap fun t ht x hx ↦ ?_
  obtain ⟨n, hn, rfl⟩ := Option.map_eq_some_iff.1 hx
  exact exact_typeName hr ht (Option.filter_eq_some_iff.1 hn).1

theorem typeCase_sound : (typeCase r).Sound s := by
  refine Outcome.found_flatMap fun t ht x hx ↦ ?_
  rcases List.mem_append.1 hx with hx | hx <;> obtain ⟨n, hn, hx⟩ := List.mem_flatMap.1 hx
  · simp only [aliasCase, List.mem_ite_nil_left, List.mem_singleton] at hx
    rw [hx.2]
    exact exact_typeName hr ht (Option.mem_toList.1 hn)
  · simp only [tagCase, List.mem_ite_nil_left, List.mem_singleton] at hx
    rw [hx.2]
    exact exact_tag hr ht (Option.mem_toList.1 hn)

theorem typeTagPrefix_sound : (typeTagPrefix r).Sound s := by
  refine Outcome.found_filterMap fun t ht x hx ↦ ?_
  unfold tagPrefixOf at hx
  split at hx
  · rename_i hn
    simp only [Option.mem_def, Option.ite_none_right_eq_some, Option.some.injEq] at hx
    rw [← hx.2]
    exact exact_tag hr ht hn
  · cases hx

theorem macroCase_sound : (macroCase r).Sound s :=
  Outcome.found_map fun _ hm ↦ exact_macro hr (List.mem_of_mem_filter hm)

theorem enumConstantCase_sound : (enumConstantCase r).Sound s :=
  Outcome.found_map fun n hn ↦
    exact_name hr ((facts_sound hr).enumConstants n (List.mem_of_mem_filter hn))

theorem functionCase_sound : (functionCase r).Sound s := by
  refine Outcome.found_map fun n hn ↦ ?_
  rcases List.mem_append.1 (List.mem_of_mem_filter hn) with hn | hn
  · obtain ⟨fn, hfn, rfl⟩ := List.mem_map.1 hn
    exact exact_function hr hfn
  · exact exact_name hr ((facts_sound hr).prototypes n hn)

theorem variableLength_sound : (variableLength r).Sound s :=
  Outcome.found_map fun _ hv ↦ exact_object hr (List.mem_of_mem_filter hv)

theorem variableCase_sound : (variableCase r).Sound s :=
  Outcome.found_map fun _ hv ↦ exact_object hr (List.mem_of_mem_filter hv)

theorem pointerPrefix_sound : (pointerPrefix r).Sound s := by
  refine Outcome.found_filterMap fun v hv x hx ↦ ?_
  simp only [pointerPrefixOf, Option.mem_def, Option.ite_none_left_eq_some, Option.some.injEq] at hx
  rw [← hx.2]
  exact exact_object hr hv

theorem globalPrefix_sound : (globalPrefix r).Sound s :=
  Outcome.found_map fun _ hv ↦ exact_object hr (List.mem_of_mem_filter hv)

theorem declaredNames_exact : ∀ d ∈ declaredNames r.facts, s.Exact d.2 := by
  intro d hd
  simp only [declaredNames, List.mem_append, List.mem_map, List.mem_flatMap, Option.mem_toList] at hd
  rcases hd with (((((⟨v, hv, rfl⟩ | ⟨fn, hfn, rfl⟩) | ⟨n, hn, rfl⟩) | ⟨m, hm, rfl⟩) | ⟨n, hn, rfl⟩) |
    ⟨t, ht, ⟨n, hn, rfl⟩ | ⟨n, hn, rfl⟩⟩) | ⟨fn, hfn, n, hn, rfl⟩
  · exact exact_object hr hv
  · exact exact_function hr hfn
  · exact exact_name hr ((facts_sound hr).prototypes n hn)
  · exact exact_macro hr hm
  · exact exact_name hr ((facts_sound hr).enumConstants n hn)
  · exact exact_typeName hr ht hn
  · exact exact_tag hr ht hn
  · exact exact_name hr (((facts_sound hr).functions fn hfn).label_from hn)

theorem reserved_sound : (reserved r).Sound s :=
  Outcome.found_map fun d hd ↦ declaredNames_exact hr d (List.mem_of_mem_filter hd)

end Naming

section Documentation

open Documentation

theorem firstToken_mem {foci : Array Focus} {t : Tree} {f : Focus} (h : firstToken foci t = some f) :
    f ∈ foci := by
  unfold firstToken at h
  split at h
  · exact Array.mem_of_getElem? h
  · exact Array.mem_of_getElem? h
  · exact Tree.firstCode_mem h

include hr

theorem fileHeader_sound : (fileHeader r).Sound s := by
  refine Outcome.found_map fun f hf ↦ exact_mem_foci hr ?_
  exact List.mem_of_find?_eq_some (Option.filter_eq_some_iff.1 (Option.mem_toList.1 hf)).1

theorem functionHeader_sound : (functionHeader r).Sound s :=
  Outcome.found_map fun _ hfn ↦ exact_function hr (List.mem_of_mem_filter hfn)

theorem sectionOrder_sound : (sectionOrder r).Sound s := by
  refine Outcome.found_filterMap fun d _ x hx ↦ ?_
  obtain ⟨f, hf, rfl⟩ := Option.map_eq_some_iff.1 hx
  exact exact_focus hr (firstToken_mem hf)

end Documentation

section Builtin

/-- The check of a rule, if it has one, gives a sound outcome. -/
def SoundAt (r : RuleInput) (s : Source) (rule : Rule) : Prop :=
  ∀ check, rule.check = some check → (check r).Sound s

theorem soundAt_mk {id : String} {category : Category} {severity : Severity} {summary : String}
    {check : RuleInput → Outcome} :
    SoundAt r s ⟨id, category, severity, summary, some check⟩ ↔ (check r).Sound s := by
  simp [SoundAt]


include hr

theorem lexical_soundAt : ∀ rule ∈ Lexical.rules, rule.SoundAt r s := by
  simp only [Lexical.rules, List.forall_mem_cons, soundAt_mk, List.not_mem_nil, false_imp_iff,
    implies_true, and_true]
  exact ⟨report_sound hr _, report_sound hr _, report_sound hr _, report_sound hr _,
    report_sound hr _, report_sound hr _⟩

theorem naming_soundAt : ∀ rule ∈ Naming.rules, rule.SoundAt r s := by
  simp only [Naming.rules, List.forall_mem_cons, soundAt_mk, List.not_mem_nil, false_imp_iff,
    implies_true, and_true]
  exact ⟨typeSuffix_sound hr, typeCase_sound hr, typeTagPrefix_sound hr, macroCase_sound hr,
    enumConstantCase_sound hr, functionCase_sound hr, variableLength_sound hr, variableCase_sound hr,
    pointerPrefix_sound hr, globalPrefix_sound hr, reserved_sound hr⟩

theorem layout_soundAt : ∀ rule ∈ Layout.rules, rule.SoundAt r s := by
  simp only [Layout.rules, List.forall_mem_cons, soundAt_mk, List.not_mem_nil, false_imp_iff,
    implies_true, and_true]
  exact ⟨lineLength_sound hr, tab_sound hr, trailing_sound hr, (multipleSpaces_atFoci r).sound hr,
    spacing_sound hr _, spacing_sound hr _, spacing_sound hr _, spacing_sound hr _,
    (parenSpacing_atFoci r).sound hr, (keywordSpacing_atFoci r).sound hr, spacing_sound hr _,
    (braceOpenLine_atFoci r).sound hr, braceCloseLine_sound hr, indentation_sound hr, blankLines_sound hr,
    finalNewline_sound hr, lineEnding_sound hr⟩

theorem structure_soundAt : ∀ rule ∈ Structure.rules, rule.SoundAt r s := by
  simp only [Structure.rules, List.forall_mem_cons, soundAt_mk, List.not_mem_nil, false_imp_iff,
    implies_true, and_true]
  exact ⟨unbalanced_sound hr, bracesRequired_sound hr, switchDefault_sound hr,
    elseIfTermination_sound hr, nestingDepth_sound hr, ternaryNesting_sound hr,
    functionLength_sound hr, fileLength_sound hr, oneStatementPerLine_sound hr⟩

theorem comments_soundAt : ∀ rule ∈ Comments.rules, rule.SoundAt r s := by
  simp only [Comments.rules, List.forall_mem_cons, soundAt_mk, List.not_mem_nil, false_imp_iff,
    implies_true, and_true]
  exact ⟨singleLinePlacement_sound hr, nested_sound hr, capitalization_sound hr,
    blankLineBefore_sound hr, delimiterSpacing_sound hr⟩

theorem keywords_soundAt : ∀ rule ∈ Keywords.rules, rule.SoundAt r s := by
  simp only [Keywords.rules, List.forall_mem_cons, soundAt_mk, List.not_mem_nil, false_imp_iff,
    implies_true, and_true]
  exact ⟨forbid_sound hr _, forbid_sound hr _, gotoBackward_sound hr, gotoScope_sound hr,
    labelName_sound hr⟩

theorem documentation_soundAt : ∀ rule ∈ Documentation.rules, rule.SoundAt r s := by
  simp only [Documentation.rules, List.forall_mem_cons, soundAt_mk, List.not_mem_nil, false_imp_iff,
    implies_true, and_true]
  exact ⟨fileHeader_sound hr, functionHeader_sound hr, sectionOrder_sound hr⟩

/-- No built-in rule fails, and what it finds lies exactly in the file. -/
theorem builtin_soundAt : ∀ rule ∈ builtin, rule.SoundAt r s := by
  intro rule hrule
  simp only [builtin, List.mem_append] at hrule
  rcases hrule with ((((((h | h) | h) | h) | h) | h) | h) | h
  · exact lexical_soundAt hr rule h
  · exact naming_soundAt hr rule h
  · exact layout_soundAt hr rule h
  · exact structure_soundAt hr rule h
  · exact comments_soundAt hr rule h
  · exact keywords_soundAt hr rule h
  · exact documentation_soundAt hr rule h
  · intro check hcheck
    simp only [engineRules, List.mem_cons, List.not_mem_nil, or_false] at h
    rcases h with rfl | rfl | rfl | rfl <;> cases hcheck

end Builtin

end Rule

end CodeStyle
