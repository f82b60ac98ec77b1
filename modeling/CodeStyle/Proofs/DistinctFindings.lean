import CodeStyle.Proofs.ElseIfChains

/-!
What a rule finds once. Most rules go over tokens, lines, names or nodes that have bytes of their own, so no
two of their findings start at the same byte. The others read some declarations and blocks twice.
-/

namespace CodeStyle

/-- The rules that may find one thing twice. -/
def Rule.repeating : List String :=
  ["KEYWORDS.GOTO_BACKWARD", "KEYWORDS.GOTO_SCOPE", "KEYWORDS.LABEL_NAME", "NAMING.ENUM_CONSTANT_CASE",
    "NAMING.POINTER_PREFIX", "NAMING.RESERVED", "NAMING.VARIABLE_CASE", "NAMING.VARIABLE_LENGTH",
    "WHITESPACE.BRACE_CLOSE_LINE"]

namespace Rule

open RuleInput

variable {r : RuleInput} {s : Source} (hr : r.file = Analysis.of s)

section Lexical

include hr

theorem report_apart (fault : Fault) : Span.Apart (Lexical.report fault r).spans := by
  have herrors : Span.Apart (r.file.lexErrors.map LexError.span) := by
    rw [hr]
    exact List.pairwise_map.2 (s.lexErrors_ordered.imp Nat.ne_of_lt)
  exact herrors.of_sublist Outcome.found_filter_sublist

end Lexical

section Spacing

include hr

theorem foci_apart : Span.Apart (r.foci.map (·.token.span)) := by
  rw [foci_eq hr]
  exact Focus.spans_apart s

theorem atFoci_apart {o : Outcome} (h : r.AtFoci o) : Span.Apart o.spans := by
  obtain ⟨check, rfl, hspan⟩ := h
  exact (foci_apart hr).of_sublist (Outcome.found_filterMap_sublist fun f _ ↦ hspan f)

theorem spacing_apart (owner : Spacing.Owner) : Span.Apart (Spacing.check owner r).spans :=
  (foci_apart hr).of_sublist (findings_sublist owner ⟨0, 0⟩ r.foci)

end Spacing

section Layout

open Layout Text

theorem tabRuns_scans (offset : Nat) (bytes : List UInt8) :
    Scans offset (offset + bytes.length) ((tabRuns offset bytes).map Prod.fst) := by
  fun_induction tabRuns offset bytes with
  | case1 => exact .nil
  | case2 offset b rest _ ih =>
    rw [Nat.add_right_comm, Nat.add_assoc] at ih
    exact ih.mono (Nat.le_succ _)
  | case3 offset b rest _ more ih =>
    have hmore : more ≤ rest.length := (List.takeWhile_sublist _).length_le
    rw [List.length_drop, show offset + 1 + more + (rest.length - more) = offset + (b :: rest).length by
      rw [List.length_cons]; omega] at ih
    exact ih.cons (Nat.le_refl _) (by omega) (by simp)

theorem tabRuns_le (offset : Nat) (bytes : List UInt8) : ∀ p ∈ tabRuns offset bytes, p.1 ≤ p.2 := by
  fun_induction tabRuns offset bytes with
  | case1 => simp
  | case2 _ _ _ _ ih => exact ih
  | case3 offset b rest _ more ih => exact List.forall_mem_cons.2 ⟨by dsimp only; omega, ih⟩

theorem lineEndings_scans (offset : Nat) (bytes : List UInt8) :
    Scans offset (offset + bytes.length) ((lineEndings offset bytes).map Prod.fst) := by
  fun_induction lineEndings offset bytes with
  | case1 => exact .nil
  | case2 offset b | case3 offset b => exact Scans.nil.cons (Nat.le_refl _) (Nat.lt_succ_self _) (by simp)
  | case4 => exact .nil
  | case5 offset b c rest _ ih | case7 offset b c rest _ _ _ ih =>
    rw [List.length_cons, Nat.add_right_comm, Nat.add_assoc] at ih
    exact ih.cons (Nat.le_refl _) (Nat.lt_succ_self _) (by simp)
  | case6 offset b c rest _ _ _ ih =>
    rw [Nat.add_right_comm, Nat.add_assoc] at ih
    exact ih.cons (Nat.le_refl _) (by omega) (by simp)
  | case8 offset b c rest _ _ ih =>
    rw [List.length_cons, Nat.add_right_comm, Nat.add_assoc] at ih
    exact ih.mono (Nat.le_succ _)

/-- The blanks before tokens are tokens themselves. -/
theorem previous_sublist (i : Nat) (before tokens : List Token) :
    ((Focus.fromIndex i before tokens).flatMap fun f ↦ f.before.head?.toList).Sublist
      (before.head?.toList ++ tokens) := by
  induction tokens generalizing i before with
  | nil => exact List.nil_sublist _
  | cons t tokens ih =>
    rw [Focus.fromIndex, List.flatMap_cons]
    exact (List.Sublist.refl _).append (ih _ _)

theorem indentationAt_sublist (width : Nat) (foci : List Focus) :
    (Outcome.found (foci.filterMap (indentationAt width))).spans.Sublist
      ((foci.flatMap fun f ↦ f.before.head?.toList).map Token.span) := by
  rw [List.filterMap_eq_flatMap_toList, List.map_flatMap]
  refine Outcome.found_flatMap_sublist fun f _ ↦ ?_
  cases hx : indentationAt width f with
  | none => exact List.nil_sublist _
  | some x =>
    obtain ⟨blanks, hb, hspan⟩ := indentationAt_span hx
    rw [hb, Option.toList_some, Option.toList_some, List.map_singleton, List.map_singleton, hspan]

theorem longBlankRuns_sublist (limit run : Nat) (lines : List LineFact) :
    (longBlankRuns limit run lines).Sublist (lines.map LineFact.number) := by
  fun_induction longBlankRuns limit run lines with
  | case1 => exact .slnil
  | case2 _ _ _ _ ih | case4 _ _ _ _ _ ih => exact ih.cons _
  | case3 _ _ _ _ _ ih => exact ih.cons_cons _

include hr

/-- What is found once on each line. -/
theorem lines_apart {check : Nat × Nat → Option Finding}
    (h : ∀ start stop x, start ≤ stop → stop ≤ s.length → check (start, stop) = some x →
      start ≤ x.span.startByte ∧ x.span.startByte < stop) :
    Span.Apart (Outcome.found ((lineRanges r.source).filterMap check)).spans := by
  rw [Outcome.spans, Outcome.found, source_eq hr, lineRanges, List.filterMap_filterMap,
    List.filterMap_eq_flatMap_toList, List.map_flatMap]
  refine Span.apart_flatMap (s.numbers_disjoint List.pairwise_lt_range') fun n _ ↦ ?_
  cases hrange : s.lineRange? n with
  | none => exact .nil
  | some range =>
    obtain ⟨start, stop⟩ := range
    obtain ⟨hle, hlength⟩ := Source.lineRange_bounds hrange
    cases hx : check (start, stop) with
    | none => rw [Option.bind_some, hx]; exact .nil
    | some x =>
      obtain ⟨hstart, hstop⟩ := h start stop x hle hlength hx
      rw [Option.bind_some, hx]
      exact .one (Source.lineHas hrange hstart (.inl hstop))

theorem lineLength_apart : Span.Apart (lineLength r).spans := by
  refine lines_apart hr fun start stop x _ hlength hx ↦ ?_
  simp only [Option.ite_none_right_eq_some, Option.some.injEq] at hx
  rw [← hx.2, source_eq hr, Source.startByte_spanFor (by omega) (by omega)]
  omega

theorem trailing_apart : Span.Apart (trailing r).spans := by
  refine lines_apart hr fun start stop x hle hlength hx ↦ ?_
  simp only [Option.ite_none_right_eq_some, Option.some.injEq] at hx
  have hcount : trailingBlanks (r.source.slice start stop) ≤ stop - start :=
    Nat.le_trans (trailingBlanks_le _) (List.length_take_le _ _)
  rw [← hx.2, source_eq hr, Source.startByte_spanFor (by omega) (by omega)]
  rw [source_eq hr] at hx hcount
  omega

theorem tab_apart : Span.Apart (tab r).spans := by
  rw [Outcome.spans, tab, Outcome.found, source_eq hr, tokens_eq hr, List.map_flatMap]
  refine Span.apart_flatMap (s.tokens_disjoint.sublist List.filter_sublist) fun t ht ↦ ?_
  obtain ⟨hend, hlength⟩ := Source.token_bounds (List.mem_of_mem_filter ht)
  rw [List.map_map]
  refine Source.placed_spanFor (tabRuns_scans _ _) (tabRuns_le _ _) fun k hlow hhigh ↦ ?_
  exact ⟨⟨hlow, by omega⟩, by omega⟩

theorem indentation_apart : Span.Apart (indentation r).spans := by
  -- A finding lies at the blanks before its token, so it is the tokens before others that have to differ.
  have hprevious : Span.Apart ((r.foci.flatMap fun f ↦ f.before.head?.toList).map Token.span) := by
    rw [foci_eq hr]
    exact s.token_spans_apart.of_sublist ((previous_sublist 0 [] s.tokens).map Token.span)
  unfold indentation
  dsimp only
  split
  · exact .nil
  · refine hprevious.of_sublist ((indentationAt_sublist _ _).trans (List.Sublist.map _ (List.Sublist.flatMap ?_ _)))
    exact (firstOnLines_sublist [] _).trans List.filter_sublist

theorem blankLines_apart : Span.Apart (blankLines r).spans := by
  have hnumbers : (r.facts.lines.map LineFact.number).Pairwise (· < ·) := by
    rw [facts, hr]
    change ((Facts.lineTable s.lineCount s.tokens).map LineFact.number).Pairwise (· < ·)
    rw [Facts.lineTable, List.map_map]
    exact List.pairwise_map.2 List.pairwise_lt_range'
  rw [Outcome.spans, blankLines, Outcome.found, source_eq hr, List.filterMap_eq_flatMap_toList, List.map_flatMap]
  refine Span.apart_flatMap (s.numbers_disjoint (hnumbers.sublist (longBlankRuns_sublist _ _ _))) fun n _ ↦ ?_
  cases hrange : s.lineRange? n with
  | none => rw [Source.lineSpan?, hrange]; exact .nil
  | some range =>
    obtain ⟨start, stop⟩ := range
    obtain ⟨hle, hlength⟩ := Source.lineRange_bounds hrange
    rw [Source.lineSpan?, hrange]
    exact Source.placed_one hle (Nat.le_trans hle hlength) (Source.lineHas hrange (Nat.le_refl _) (.inr rfl))

omit hr in
theorem finalNewline_apart (r : RuleInput) : Span.Apart (finalNewline r).spans := by
  refine Span.apart_of_length_le ?_
  unfold finalNewline
  split
  · exact Nat.zero_le _
  · exact Nat.le_refl _

theorem lineEnding_apart : Span.Apart (lineEnding r).spans := by
  have hplaced : Span.Placed (fun _ ↦ True)
      ((lineEndings 0 s.bytes).map fun p ↦ s.spanFor p.1 (p.1 + p.2.length)) := by
    refine Source.placed_spanFor (lineEndings_scans 0 s.bytes) (fun p _ ↦ Nat.le_add_right _ _) fun k _ hk ↦ ?_
    rw [Nat.zero_add] at hk
    exact ⟨trivial, Nat.le_of_lt hk⟩
  rw [lineEnding, source_eq hr]
  refine hplaced.apart.of_sublist (Outcome.found_filterMap_sublist fun p _ x hx ↦ ?_)
  obtain ⟨message, -, rfl⟩ := Option.map_eq_some_iff.1 hx
  rfl

end Layout

section Structure

open Structure

variable {foci : Array Focus} {t : Tree}

/-- The place of the first code of an item. -/
def leadSpans (foci : Array Focus) (t : Tree) : List Span :=
  if isItem t then (t.firstCode foci).toList.map (·.token.span) else []

theorem leadSpans_placed (ht : t ∈ (Analysis.of s).preorder) :
    Span.Placed (t.Has (Analysis.of s).foci) (leadSpans (Analysis.of s).foci t) := by
  unfold leadSpans
  split
  case isTrue hitem =>
    cases hf : t.firstCode (Analysis.of s).foci with
    | none => exact .nil
    | some f => exact .one (Analysis.firstCode_item ht hitem hf)
  case isFalse => exact .nil

theorem withLead_sublist {check : Focus → Outcome} (hitem : isItem t = true)
    (h : ∀ f, (check f).spans.Sublist [f.token.span]) : (withLead foci t check).spans.Sublist (leadSpans foci t) := by
  rw [withLead, leadSpans, if_pos hitem]
  cases t.firstCode foci with
  | none => exact .slnil
  | some f => exact h f

theorem crowded_sublist (foci : Array Focus) (previous : Option (Tree × Nat)) (ts : List Tree) :
    ((crowded foci previous ts).map Token.span).Sublist (ts.flatMap (leadSpans foci)) := by
  fun_induction crowded foci previous ts with
  | case1 => exact .slnil
  | case2 previous t rest hitem first last _ hfirst same ih =>
    rw [List.map_append, List.flatMap_cons, leadSpans, if_pos hitem, hfirst]
    refine List.Sublist.append ?_ ih
    split
    · exact .refl _
    · exact List.nil_sublist _
  | case3 _ _ _ _ _ ih | case4 _ _ _ _ _ ih | case5 _ _ _ _ _ ih =>
    exact ih.trans (List.sublist_append_right _ _)

include hr

theorem unbalanced_apart : Span.Apart (unbalanced r).spans := by
  obtain ⟨fs, hperm, hnodup, hfs⟩ := Outline.ofFoci_errors_ofTokens (Focus.all_consecutive s.tokens)
  have htokens : Span.Apart (fs.map (·.token.span)) := by
    refine List.pairwise_map.2 ((List.pairwise_map.1 hnodup).imp_of_mem fun {f g} hf hg hne heq ↦ hne ?_)
    rw [Focus.eq_of_startByte (hfs f hf).1 (hfs g hg).1 heq]
  rw [Outcome.spans, unbalanced, Outcome.found, hr, List.map_map]
  exact htokens.perm hperm

/-- What is found at the first tokens of control statements. -/
theorem controls_apart {vs : List Visit} (hvs : vs.Sublist (controlStatements r.file)) {check : Visit → Focus → Outcome}
    (h : ∀ v f, (check v f).spans.Sublist [f.token.span]) :
    Span.Apart (Outcome.each vs fun v ↦ withLead r.file.foci v.tree (check v)).spans := by
  rw [hr] at hvs ⊢
  have hvisits := hvs.trans List.filter_sublist
  refine Span.Apart.of_sublist ?_ ((Outcome.spans_each_sublist vs _).trans
    (List.Sublist.flatMap_right vs fun v hv ↦ withLead_sublist ?_ (h v)))
  · refine Span.apart_flatMap ((Analysis.visits_disjoint s).sublist hvisits) fun v hv ↦ ?_
    exact leadSpans_placed (List.mem_map_of_mem (hvisits.subset hv))
  · have hcontrol := (List.mem_filter.1 (hvs.subset hv)).2
    simp only [Tree.isControl, Bool.and_eq_true] at hcontrol
    simp [isItem, hcontrol.1]

theorem bracesRequired_apart : Span.Apart (bracesRequired r).spans :=
  controls_apart hr List.filter_sublist fun _ _ ↦ .refl _

theorem switchDefault_apart : Span.Apart (switchDefault r).spans := by
  refine controls_apart hr List.filter_sublist fun v f ↦ ?_
  split
  · exact List.nil_sublist _
  · exact .refl _

theorem nestingDepth_apart : Span.Apart (nestingDepth r).spans :=
  controls_apart hr (List.filter_sublist.trans (untilCancelled_sublist r _)) fun _ _ ↦ .refl _

theorem ternaryNesting_apart : Span.Apart (ternaryNesting r).spans := by
  rw [Outcome.spans, ternaryNesting, Outcome.found, tokens_eq hr, List.map_map]
  exact s.token_spans_apart.of_sublist ((deepTernaries_sublist _ _ _).map Token.span)

theorem functions_apart : Span.Apart (r.facts.functions.map fun f ↦ f.name.span) := by
  have h := Analysis.names_apart (Analysis.functions_apart s)
  rw [List.map_append, List.map_map] at h
  rw [facts, hr]
  exact h.of_sublist (List.sublist_append_left _ _)

theorem functionLength_apart : Span.Apart (functionLength r).spans := by
  refine (functions_apart hr).of_sublist (Outcome.each_sublist fun f _ ↦ ?_)
  split
  · exact List.nil_sublist _
  · refine withToken_sublist fun opener _ ↦ withToken_sublist fun close _ ↦ ?_
    dsimp only
    split
    · exact .refl _
    · exact List.nil_sublist _

omit hr in
theorem fileLength_apart (r : RuleInput) : Span.Apart (fileLength r).spans := by
  refine Span.apart_of_length_le ?_
  unfold fileLength
  dsimp only
  split
  · cases r.source.lineSpan? (r.limits.fileLines + 1) with
    | none => exact Nat.zero_le _
    | some span => exact Nat.le_refl _
  · exact Nat.zero_le _

theorem oneStatementPerLine_apart : Span.Apart (oneStatementPerLine r).spans := by
  rw [Outcome.spans, oneStatementPerLine, Outcome.found, hr, List.map_map]
  have hleads : Span.Apart (((Analysis.of s).preorder.flatMap Tree.children).flatMap
      (leadSpans (Analysis.of s).foci)) := by
    refine Span.apart_flatMap (Analysis.children_disjoint s) fun t ht ↦ ?_
    obtain ⟨p, hp, ht⟩ := List.mem_flatMap.1 ht
    exact leadSpans_placed (Tree.child_mem_preorder hp ht)
  -- Siblings are compared with each other only, but each node is the child of one node.
  refine hleads.of_sublist ?_
  rw [List.flatMap_assoc]
  change (((Analysis.of s).preorder.flatMap _).map Token.span).Sublist _
  rw [List.map_flatMap]
  exact List.Sublist.flatMap_right _ fun t _ ↦ crowded_sublist _ _ _

end Structure

section Comments

open Comments

theorem innerOpenings_scans (offset : Nat) (bytes : List UInt8) :
    Scans offset (offset + bytes.length) (innerOpenings offset bytes) := by
  fun_induction innerOpenings offset bytes with
  | case1 offset a b rest _ ih =>
    rw [Nat.add_right_comm, Nat.add_assoc] at ih
    exact ih.cons (Nat.le_refl _) (by omega) (by simp)
  | case2 offset a b rest _ ih =>
    rw [List.length_cons, Nat.add_right_comm, Nat.add_assoc] at ih
    exact ih.mono (Nat.le_succ _)
  | case3 => exact .nil

theorem capitalizationAt_placed {t : Token} (ht : t ∈ s.tokens) :
    Span.Placed t.Has ((capitalizationAt s t).map Finding.span) := by
  obtain ⟨hend, hlength⟩ := Source.token_bounds ht
  unfold capitalizationAt
  dsimp only
  split
  case isTrue => exact .nil
  case isFalse hword =>
    have hpos : 0 < (bareWord (firstWord t.bytes).2).length := by
      refine List.length_pos_iff.2 fun hnil ↦ hword ?_
      simp [hnil]
    have hbare := bareWord_le (firstWord t.bytes).2
    have hbounds := firstWord_bounds (List.length_pos_iff.1 (Nat.lt_of_lt_of_le hpos hbare))
    exact Source.placed_one (Nat.le_add_right _ _) (by omega) ⟨Nat.le_add_right _ _, by omega⟩

theorem lineDelimiter_placed {t : Token} (ht : t ∈ s.tokens) :
    Span.Placed t.Has ((lineDelimiter s t).map Finding.span) := by
  obtain ⟨-, hlength⟩ := Source.token_bounds ht
  have hstart := Source.has_start ht
  unfold lineDelimiter
  dsimp only
  split
  · exact .nil
  · exact Source.placed_one (Nat.le_add_right _ _) (Nat.le_trans (Nat.le_of_lt hstart.2) hlength) hstart

theorem blockDelimiters_placed {t : Token} (ht : t ∈ s.tokens) :
    Span.Placed t.Has ((blockDelimiters s t).map Finding.span) := by
  obtain ⟨hend, hlength⟩ := Source.token_bounds ht
  unfold blockDelimiters
  dsimp only
  split
  case isTrue => exact .nil
  case isFalse hsize =>
    set base := t.span.startByte
    set size := t.bytes.length
    -- Both findings are pieces of the token, and the second one starts behind the first.
    have hscan : Scans base (base + size) ([(base, base + 2), (base + size - 2, base + size)].map Prod.fst) :=
      (Scans.nil.cons (Nat.le_refl (base + size - 2)) (Nat.lt_succ_self _) (by omega)).cons (Nat.le_refl _)
        (by omega) (by omega)
    have hboth : Span.Placed t.Has
        ([(base, base + 2), (base + size - 2, base + size)].map fun p ↦ s.spanFor p.1 p.2) := by
      refine Source.placed_spanFor hscan (by simp) fun k hlow hhigh ↦ ?_
      exact ⟨⟨hlow, by omega⟩, by omega⟩
    have hsub : ∀ {p q : Prop} [Decidable p] [Decidable q] {x y : Finding},
        (((if p then [] else [x]) ++ if q then [] else [y]).map Finding.span).Sublist [x.span, y.span] := by
      intro p q _ _ x y
      split <;> split <;> simp
    exact ⟨hboth.apart.of_sublist hsub, fun x hx ↦ hboth.mem x (hsub.subset hx)⟩

include hr

theorem singleLinePlacement_apart : Span.Apart (singleLinePlacement r).spans :=
  (foci_apart hr).of_sublist Outcome.found_filter_sublist

theorem nested_apart : Span.Apart (nested r).spans := by
  rw [Outcome.spans, nested, Outcome.found, source_eq hr, tokens_eq hr, List.map_flatMap]
  refine Span.apart_flatMap (s.tokens_disjoint.sublist List.filter_sublist) fun t ht ↦ ?_
  obtain ⟨hend, hlength⟩ := Source.token_bounds (List.mem_of_mem_filter ht)
  rw [List.map_map]
  refine Source.placed_spanFor (by rw [List.map_id']; exact innerOpenings_scans _ _)
    (fun k _ ↦ Nat.le_add_right k 2) fun k hlow hhigh ↦ ?_
  rw [List.length_drop, List.length_take] at hhigh
  exact ⟨⟨by omega, by omega⟩, by omega⟩

/-- What is found in the first tokens of comments. -/
theorem comments_apart {p : Tree → Bool} (hp : ∀ t, p t = true → t.kind = .commentBlock)
    {check : Tree → Focus → Outcome}
    (h : ∀ t f, t.start < t.stop → r.file.foci[t.start]? = some f → Span.Placed f.token.Has (check t f).spans) :
    Span.Apart (Outcome.each (r.file.preorder.filter p) fun t ↦ r.withToken t.start (check t)).spans := by
  have hnodes : (r.file.preorder.filter p).Pairwise
      fun t u ↦ ∀ k, t.Has r.file.foci k → ¬u.Has r.file.foci k := by
    rw [hr]
    exact (Analysis.nodes_disjoint s).sublist List.filter_sublist
  refine Outcome.each_apart hnodes fun t ht ↦ ?_
  obtain ⟨ht, hcomment⟩ := List.mem_filter.1 ht
  have hkind := hp t hcomment
  have hrange := node_range hr ht (by simp [hkind])
  unfold withToken
  split
  case h_1 f hf =>
    have hplaced := h t f hrange.1 hf
    rw [hr] at ht hf ⊢
    exact ⟨hplaced.apart, fun x hx ↦ Analysis.item_has ht (by rw [hkind]; rfl) hf (hplaced.mem x hx)⟩
  case h_2 => exact .nil

theorem token_of_index {i : Nat} {f : Focus} (hf : r.file.foci[i]? = some f) : f.token ∈ s.tokens :=
  Focus.token_mem ((mem_foci hr).1 (Array.mem_of_getElem? hf))

theorem capitalization_apart : Span.Apart (capitalization r).spans := by
  refine comments_apart hr (fun t ht ↦ by simpa using ht) fun t f _ hf ↦ ?_
  rw [source_eq hr]
  exact capitalizationAt_placed (token_of_index hr hf)

theorem blankLineBefore_apart : Span.Apart (blankLineBefore r).spans := by
  refine comments_apart hr (fun t ht ↦ ?_) fun t first hlt hfirst ↦ ?_
  · simp only [Bool.and_eq_true, beq_iff_eq] at ht
    exact ht.1
  · have hstart := Source.has_start (token_of_index hr hfirst)
    split
    · exact .nil
    · unfold withToken
      split
      case h_1 last hlast =>
        refine .one ?_
        rw [hr] at hfirst hlast
        have hle := Analysis.startByte_le hfirst hlast (by omega)
        simpa [Span.join, hle] using hstart
      case h_2 => exact .nil

theorem delimiterSpacing_apart : Span.Apart (delimiterSpacing r).spans := by
  rw [Outcome.spans, delimiterSpacing, Outcome.found, source_eq hr, tokens_eq hr, List.map_flatMap]
  refine Span.apart_flatMap s.tokens_disjoint fun t ht ↦ ?_
  split
  · exact lineDelimiter_placed ht
  · exact blockDelimiters_placed ht
  · exact .nil

end Comments

section Keywords

include hr

theorem forbid_apart (word : String) : Span.Apart (Keywords.forbid word r).spans := by
  rw [Keywords.forbid, tokens_eq hr]
  exact s.token_spans_apart.of_sublist Outcome.found_filter_sublist

end Keywords

section Naming

open Naming

theorem macroFact_placed {t : Tree} (ht : t ∈ (Analysis.of s).preorder) (hkind : t.kind = .macroDefinition) :
    Span.Placed (t.Has (Analysis.of s).foci)
      ((Facts.macroFact? s (Analysis.of s).foci t).toList.map MacroFact.span) := by
  cases hm : Facts.macroFact? s (Analysis.of s).foci t with
  | none => exact .nil
  | some m =>
    obtain ⟨f, hf, hrange⟩ := Option.bind_eq_some_iff.1 hm
    obtain ⟨⟨start, stop, isFunctionLike⟩, hname, rfl⟩ := Option.map_eq_some_iff.1 hrange
    obtain ⟨hlt, hle⟩ := Facts.macroNameRange_bounds hname
    have hmem := Analysis.mem_foci.1 (Analysis.getElem_foci.1 hf).1
    obtain ⟨hend, hlength⟩ := Source.token_bounds (Focus.token_mem hmem)
    refine Source.placed_one (by omega) (by omega) (Analysis.item_has ht (by rw [hkind]; rfl) hf ?_)
    exact ⟨Nat.le_add_right _ _, by omega⟩

theorem macros_apart (s : Source) : Span.Apart ((Analysis.of s).facts.macros.map MacroFact.span) := by
  have hmacros : (Analysis.of s).facts.macros =
      (Analysis.of s).visits.flatMap fun v ↦ (Facts.ofVisit s (Analysis.of s).foci v).macros :=
    Facts.field_foldl Facts.macros (fun _ _ ↦ rfl) rfl s _ _
  rw [hmacros, List.map_flatMap]
  refine Span.apart_flatMap (Analysis.visits_disjoint s) fun v hv ↦ ?_
  unfold Facts.ofVisit Facts.addVisit
  split
  case h_1 =>
    unfold Facts.addFunction
    split <;> exact .nil
  case h_4 hkind => exact macroFact_placed (List.mem_map_of_mem hv) hkind
  all_goals exact .nil

theorem tagPrefixOf_sublist (t : TypeFact) :
    ((tagPrefixOf t).toList.map Finding.span).Sublist (t.names.map Name.span) := by
  rw [TypeFact.names, List.map_append]
  refine List.Sublist.trans ?_ (List.sublist_append_right _ _)
  unfold tagPrefixOf
  split
  case h_1 kind tag hkind htag =>
    rw [htag]
    split
    · exact .refl _
    · exact List.nil_sublist _
  case h_2 => exact List.nil_sublist _

include hr

theorem types_apart : Span.Apart (r.facts.types.flatMap fun t ↦ t.names.map Name.span) := by
  have h := Analysis.names_apart (Analysis.types_apart s)
  rwa [List.map_flatMap, ← hr] at h

theorem typeSuffix_apart : Span.Apart (typeSuffix r).spans := by
  rw [typeSuffix, List.filterMap_eq_flatMap_toList]
  refine (types_apart hr).of_sublist (Outcome.found_flatMap_sublist fun t _ ↦ ?_)
  rw [TypeFact.names, List.map_append]
  refine List.Sublist.trans ?_ (List.sublist_append_left _ _)
  cases t.typeName with
  | none => exact .slnil
  | some n =>
    rw [Option.filter_some]
    split
    · exact .refl _
    · exact List.nil_sublist _

theorem typeCase_apart : Span.Apart (typeCase r).spans := by
  have hone {check : Name → List Finding} (o : Option Name)
      (h : ∀ n, ((check n).map Finding.span).Sublist [n.span]) :
      ((o.toList.flatMap check).map Finding.span).Sublist (o.toList.map Name.span) := by
    rw [List.map_flatMap, List.map_eq_flatMap]
    exact List.Sublist.flatMap_right _ fun n _ ↦ h n
  refine (types_apart hr).of_sublist (Outcome.found_flatMap_sublist fun t _ ↦ ?_)
  rw [TypeFact.names, List.map_append, List.map_append]
  refine (hone t.typeName fun n ↦ ?_).append (hone t.tag fun n ↦ ?_)
  · unfold aliasCase
    dsimp only
    split
    · exact List.nil_sublist _
    · exact .refl _
  · unfold tagCase
    split
    · exact List.nil_sublist _
    · exact .refl _

theorem typeTagPrefix_apart : Span.Apart (typeTagPrefix r).spans := by
  rw [typeTagPrefix, List.filterMap_eq_flatMap_toList]
  exact (types_apart hr).of_sublist (Outcome.found_flatMap_sublist fun t _ ↦ tagPrefixOf_sublist t)

theorem macroCase_apart : Span.Apart (macroCase r).spans := by
  have hmacros : Span.Apart (r.facts.macros.map MacroFact.span) := by
    rw [facts, hr]
    exact macros_apart s
  exact hmacros.of_sublist Outcome.found_filter_sublist

theorem functionCase_apart : Span.Apart (functionCase r).spans := by
  have hnames := Analysis.names_apart (Analysis.functions_apart s)
  rw [← hr] at hnames
  exact hnames.of_sublist Outcome.found_filter_sublist

theorem globalPrefix_apart : Span.Apart (globalPrefix r).spans := by
  have hnames := Analysis.names_apart (Analysis.globals_apart s)
  rw [← hr, List.map_map] at hnames
  refine hnames.of_sublist ?_
  rw [Outcome.spans, globalPrefix, Outcome.found, List.map_map]
  refine List.Sublist.map _ (List.monotone_filter_right _ fun v hv ↦ ?_)
  simp only [Bool.and_eq_true] at hv
  exact hv.1.1

end Naming

section Documentation

open Documentation

theorem misplaced_sublist (furthest : Option Section) (parts : List SectionFact) :
    ((misplaced furthest parts).map Prod.fst).Sublist parts := by
  fun_induction misplaced furthest parts with
  | case1 => exact .slnil
  | case2 _ _ ih | case4 _ _ _ _ ih => exact ih.cons _
  | case3 _ _ _ _ ih => exact ih.cons_cons _

mutual

/-- The parts of a file are nodes of its tree, each met once. -/
theorem sectionsIn_sublist (source : Source) (foci : Array Focus) (t : Tree) :
    ((Facts.sectionsIn source foci t).map SectionFact.node).Sublist t.preorder := by
  cases t with
  | node id head children =>
    rw [Facts.sectionsIn, Tree.preorder_eq_cons]
    exact (sectionsAmong_sublist source foci _ children).cons _

theorem sectionsAmong_sublist (source : Source) (foci : Array Focus) (parent : Tree) (ts : List Tree) :
    ((Facts.sectionsAmong source foci parent ts).map SectionFact.node).Sublist (ts.flatMap Tree.preorder) := by
  cases ts with
  | nil => exact .slnil
  | cons t ts =>
    rw [Facts.sectionsAmong, List.map_append, List.flatMap_cons]
    refine List.Sublist.append ?_ (sectionsAmong_sublist source foci parent ts)
    split
    · exact sectionsIn_sublist source foci t
    · rw [Tree.preorder_eq_cons]
      cases Facts.sectionOf source foci parent t with
      | none => exact List.nil_sublist _
      | some part => exact List.Sublist.cons_cons t (List.nil_sublist _)

end

mutual

theorem sectionsIn_kind (source : Source) (foci : Array Focus) (t : Tree) :
    ∀ d ∈ Facts.sectionsIn source foci t, ∃ parent, Facts.sectionOf source foci parent d.node = some d.part := by
  cases t with
  | node id head children => exact sectionsAmong_kind source foci _ children

theorem sectionsAmong_kind (source : Source) (foci : Array Focus) (parent : Tree) (ts : List Tree) :
    ∀ d ∈ Facts.sectionsAmong source foci parent ts,
      ∃ parent, Facts.sectionOf source foci parent d.node = some d.part := by
  cases ts with
  | nil => simp [Facts.sectionsAmong]
  | cons t ts =>
    rw [Facts.sectionsAmong, List.forall_mem_append]
    refine ⟨?_, sectionsAmong_kind source foci parent ts⟩
    split
    · exact sectionsIn_kind source foci t
    · intro d hd
      obtain ⟨part, hpart, rfl⟩ := List.mem_map.1 hd
      exact ⟨parent, Option.mem_toList.1 hpart⟩

end

theorem firstToken_placed {t parent : Tree} {part : Section} (ht : t ∈ (Analysis.of s).preorder)
    (hpart : Facts.sectionOf s (Analysis.of s).foci parent t = some part) {f : Focus}
    (hf : firstToken (Analysis.of s).foci t = some f) : t.Has (Analysis.of s).foci f.token.span.startByte := by
  have hstart := Source.has_start (Focus.token_mem (Analysis.mem_foci.1 (firstToken_mem hf)))
  unfold firstToken at hf
  split at hf
  case h_1 hkind | h_2 hkind => exact Analysis.item_has ht (by rw [hkind]; rfl) hf hstart
  case h_3 hdirective hmacro =>
    refine Analysis.firstCode_item ht ?_ hf
    unfold Facts.sectionOf at hpart
    split at hpart
    case h_1 hkind => exact absurd hkind hdirective
    case h_2 hkind => exact absurd hkind hmacro
    case h_3 hkind | h_4 hkind | h_5 hkind => simp [Structure.isItem, hkind]
    case h_6 => cases hpart

theorem fileHeader_apart (r : RuleInput) : Span.Apart (fileHeader r).spans := by
  refine Span.apart_of_length_le ?_
  rw [Outcome.spans, fileHeader, Outcome.found, List.map_map, List.length_map]
  exact Option.length_toList_le

include hr

theorem functionHeader_apart : Span.Apart (functionHeader r).spans :=
  (functions_apart hr).of_sublist Outcome.found_filter_sublist

theorem sectionOrder_apart : Span.Apart (sectionOrder r).spans := by
  have hsections : r.facts.sections = Facts.sectionsIn s (Analysis.of s).foci (Analysis.of s).tree := by
    rw [facts, hr]
    rfl
  have hparts := misplaced_sublist none r.facts.sections
  have hnodes : ((misplaced none r.facts.sections).map fun d ↦ d.1.node).Sublist (Analysis.of s).preorder := by
    have h := hparts.map SectionFact.node
    rw [List.map_map] at h
    rw [hsections] at h ⊢
    exact h.trans (sectionsIn_sublist s (Analysis.of s).foci (Analysis.of s).tree)
  rw [Outcome.spans, sectionOrder, Outcome.found, hr, List.filterMap_eq_flatMap_toList, List.map_flatMap]
  refine Span.apart_flatMap (List.pairwise_map.1 ((Analysis.nodes_disjoint s).sublist hnodes)) fun d hd ↦ ?_
  have hmem : d.1 ∈ r.facts.sections := hparts.subset (List.mem_map_of_mem hd)
  have hnode : d.1.node ∈ (Analysis.of s).preorder := hnodes.subset (List.mem_map_of_mem hd)
  rw [hsections] at hmem
  obtain ⟨parent, hpart⟩ := sectionsIn_kind s _ _ d.1 hmem
  obtain ⟨d, seen⟩ := d
  dsimp only
  cases hf : firstToken (Analysis.of s).foci d.node with
  | none => exact .nil
  | some f => exact .one (firstToken_placed hnode hpart hf)

end Documentation

section Builtin

/-- A rule finds nothing twice, unless it is one of those that may. -/
def DistinctAt (r : RuleInput) (rule : Rule) : Prop :=
  rule.id ∉ repeating → ∀ check, rule.check = some check → Span.Apart (check r).spans

variable {id : String} {category : Category} {severity : Severity} {summary : String} {check : RuleInput → Outcome}

theorem distinctAt_mk (h : Span.Apart (check r).spans) :
    DistinctAt r ⟨id, category, severity, summary, some check⟩ := by
  intro _ check hcheck
  cases hcheck
  exact h

theorem distinctAt_repeating (h : id ∈ repeating) :
    DistinctAt r ⟨id, category, severity, summary, some check⟩ :=
  fun hid ↦ absurd h hid

include hr

theorem lexical_distinctAt : ∀ rule ∈ Lexical.rules, rule.DistinctAt r := by
  simp only [Lexical.rules, List.forall_mem_cons, List.not_mem_nil, false_imp_iff, implies_true, and_true]
  refine ⟨?_, ?_, ?_, ?_, ?_, ?_⟩ <;> exact distinctAt_mk (report_apart hr _)

theorem naming_distinctAt : ∀ rule ∈ Naming.rules, rule.DistinctAt r := by
  simp only [Naming.rules, List.forall_mem_cons, List.not_mem_nil, false_imp_iff, implies_true, and_true]
  exact ⟨distinctAt_mk (typeSuffix_apart hr), distinctAt_mk (typeCase_apart hr),
    distinctAt_mk (typeTagPrefix_apart hr), distinctAt_mk (macroCase_apart hr),
    distinctAt_repeating (by decide), distinctAt_mk (functionCase_apart hr), distinctAt_repeating (by decide),
    distinctAt_repeating (by decide), distinctAt_repeating (by decide), distinctAt_mk (globalPrefix_apart hr),
    distinctAt_repeating (by decide)⟩

theorem layout_distinctAt : ∀ rule ∈ Layout.rules, rule.DistinctAt r := by
  simp only [Layout.rules, List.forall_mem_cons, List.not_mem_nil, false_imp_iff, implies_true, and_true]
  exact ⟨distinctAt_mk (lineLength_apart hr), distinctAt_mk (tab_apart hr), distinctAt_mk (trailing_apart hr),
    distinctAt_mk (atFoci_apart hr (multipleSpaces_atFoci r)), distinctAt_mk (spacing_apart hr _),
    distinctAt_mk (spacing_apart hr _), distinctAt_mk (spacing_apart hr _), distinctAt_mk (spacing_apart hr _),
    distinctAt_mk (atFoci_apart hr (parenSpacing_atFoci r)),
    distinctAt_mk (atFoci_apart hr (keywordSpacing_atFoci r)), distinctAt_mk (spacing_apart hr _),
    distinctAt_mk (atFoci_apart hr (braceOpenLine_atFoci r)), distinctAt_repeating (by decide),
    distinctAt_mk (indentation_apart hr), distinctAt_mk (blankLines_apart hr),
    distinctAt_mk (finalNewline_apart r), distinctAt_mk (lineEnding_apart hr)⟩

theorem structure_distinctAt : ∀ rule ∈ Structure.rules, rule.DistinctAt r := by
  simp only [Structure.rules, List.forall_mem_cons, List.not_mem_nil, false_imp_iff, implies_true, and_true]
  exact ⟨distinctAt_mk (unbalanced_apart hr), distinctAt_mk (bracesRequired_apart hr),
    distinctAt_mk (switchDefault_apart hr), distinctAt_mk (elseIfTermination_apart hr),
    distinctAt_mk (nestingDepth_apart hr), distinctAt_mk (ternaryNesting_apart hr),
    distinctAt_mk (functionLength_apart hr), distinctAt_mk (fileLength_apart r),
    distinctAt_mk (oneStatementPerLine_apart hr)⟩

theorem comments_distinctAt : ∀ rule ∈ Comments.rules, rule.DistinctAt r := by
  simp only [Comments.rules, List.forall_mem_cons, List.not_mem_nil, false_imp_iff, implies_true, and_true]
  exact ⟨distinctAt_mk (singleLinePlacement_apart hr), distinctAt_mk (nested_apart hr),
    distinctAt_mk (capitalization_apart hr), distinctAt_mk (blankLineBefore_apart hr),
    distinctAt_mk (delimiterSpacing_apart hr)⟩

theorem keywords_distinctAt : ∀ rule ∈ Keywords.rules, rule.DistinctAt r := by
  simp only [Keywords.rules, List.forall_mem_cons, List.not_mem_nil, false_imp_iff, implies_true, and_true]
  exact ⟨distinctAt_mk (forbid_apart hr _), distinctAt_mk (forbid_apart hr _), distinctAt_repeating (by decide),
    distinctAt_repeating (by decide), distinctAt_repeating (by decide)⟩

theorem documentation_distinctAt : ∀ rule ∈ Documentation.rules, rule.DistinctAt r := by
  simp only [Documentation.rules, List.forall_mem_cons, List.not_mem_nil, false_imp_iff, implies_true, and_true]
  exact ⟨distinctAt_mk (fileHeader_apart r), distinctAt_mk (functionHeader_apart hr),
    distinctAt_mk (sectionOrder_apart hr)⟩

/-- No two findings of a built-in rule start at the same byte, unless it is one of those that may repeat. -/
theorem builtin_distinctAt : ∀ rule ∈ builtin, rule.DistinctAt r := by
  intro rule hrule
  simp only [builtin, List.mem_append] at hrule
  rcases hrule with ((((((h | h) | h) | h) | h) | h) | h) | h
  · exact lexical_distinctAt hr rule h
  · exact naming_distinctAt hr rule h
  · exact layout_distinctAt hr rule h
  · exact structure_distinctAt hr rule h
  · exact comments_distinctAt hr rule h
  · exact keywords_distinctAt hr rule h
  · exact documentation_distinctAt hr rule h
  · intro _ check hcheck
    simp only [engineRules, List.mem_cons, List.not_mem_nil, or_false] at h
    rcases h with rfl | rfl | rfl | rfl <;> cases hcheck

end Builtin

end Rule

end CodeStyle
