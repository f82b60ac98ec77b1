import CodeStyle.Proofs.Bounds

/-!
No built-in rule fails. Reading a file, building its tree and collecting its facts take no byte, token or
line that is not there and no difference below zero; what the rules rely on then holds of every file, and
a report never tells of a rule that could not evaluate it.
-/

namespace CodeStyle

/-- The bytes of a file and its line table. -/
structure Source.InRange (s : Source) : Prop where
  /-- No scanner takes a byte that is not there. -/
  scanners : ∀ lineHasCode first rest, (Token.Extent.of lineHasCode first rest).more ≤ rest.length
  tokens : ∀ t ∈ s.tokens, t.span.startByte < t.span.endByte ∧ t.span.endByte ≤ s.length
  errors : ∀ e ∈ s.lexErrors, e.span.startByte ≤ e.span.endByte ∧ e.span.endByte ≤ s.length
  /-- Some line starts at or before each offset. -/
  places : ∀ offset, s.lineStarts.takeWhile (· ≤ offset) ≠ [] ∧
    (s.lineStarts.takeWhile (· ≤ offset)).getLastD 0 ≤ offset
  lines : ∀ number, 1 ≤ number → number ≤ s.lineCount → ∃ start stop,
    s.lineRange? number = some (start, stop) ∧ start ≤ stop ∧ stop ≤ s.length ∧
      Rule.Layout.trailingBlanks (s.slice start stop) ≤ stop - start

/-- The tree of a file. -/
structure Analysis.TreeInRange (a : Analysis) : Prop where
  /-- A brace group has its opening brace and ends among the tokens behind it. -/
  groups : ∀ opening skip inFunction rest, 1 ≤ (BraceGroup.of opening skip inFunction rest).size ∧
    (BraceGroup.of opening skip inFunction rest).size ≤ rest.length + 1
  braces : ∀ opening skip inFunction (rest : List Focus),
    Balanced "\x7b" "\x7d" 0 (rest.take (BraceGroup.of opening skip inFunction rest).inside)
  /-- An item of a stretch of tokens ends in that stretch. -/
  items : ∀ inFunction first rest, first :: rest <:+: Focus.all a.tokens →
    (ItemDraft.of inFunction first rest).more ≤ rest.length
  nodes : ∀ t ∈ a.preorder, t.kind ≠ .translationUnit → t.start < t.stop ∧ t.stop ≤ a.tokens.length

/-- A name that a token of the file bears. -/
def Name.BorneIn (tokens : List Token) (n : Name) : Prop :=
  ∃ t, tokens[n.token]? = some t ∧ n.text = t.text ∧ n.span = t.span

/-- The facts of a file. -/
structure Analysis.FactsInRange (a : Analysis) : Prop where
  functions : ∀ fn ∈ a.facts.functions, fn.name.BorneIn a.tokens ∧
    (∀ l ∈ fn.labels, l.BorneIn a.tokens) ∧
    ∀ g ∈ fn.gotos, g.keyword.BorneIn a.tokens ∧ g.target.BorneIn a.tokens
  objects : ∀ v ∈ a.facts.objects, v.name.BorneIn a.tokens
  prototypes : ∀ n ∈ a.facts.prototypes, n.BorneIn a.tokens
  types : ∀ t ∈ a.facts.types,
    (∀ n ∈ t.tag, n.BorneIn a.tokens) ∧ ∀ n ∈ t.typeName, n.BorneIn a.tokens
  enumConstants : ∀ n ∈ a.facts.enumConstants, n.BorneIn a.tokens
  parens : ∀ code, Balanced "(" ")" 0 (Declaration.parenContent 0 code)
  /-- The search for the name of a macro stays in the bytes of the token. -/
  macros : ∀ t ∈ a.tokens, 1 + Facts.blanks (t.bytes.drop 1) ≤ t.bytes.length ∧
    ∀ start stop isFunctionLike, Facts.macroNameRange t.bytes = some (start, stop, isFunctionLike) →
      start < stop ∧ stop ≤ t.bytes.length
  /-- There is a line fact for each line of the file from that of a token on. -/
  lines : ∀ t ∈ a.tokens, 1 ≤ t.span.startLine ∧ 1 ≤ t.span.endLine ∧
    ∀ number, t.span.startLine ≤ number → number ≤ a.source.lineCount →
      ∃ l, a.facts.line? number = some l ∧ l.number = number

/-- What the rules look at. -/
structure Analysis.RulesInRange (a : Analysis) : Prop where
  around : ∀ f ∈ a.foci, f.before = (a.tokens.take f.index).reverse ∧
    a.tokens[f.index]? = some f.token ∧ f.after = a.tokens.drop (f.index + 1)
  comments : ∀ t ∈ a.tokens, t.kind.delimiters ≤ t.bytes.length
  words : ∀ bytes, (Rule.Comments.firstWord bytes).2 ≠ [] →
    (Rule.Comments.bareWord (Rule.Comments.firstWord bytes).2).length ≤
      (Rule.Comments.firstWord bytes).2.length ∧
    (Rule.Comments.firstWord bytes).1 + (Rule.Comments.firstWord bytes).2.length ≤ bytes.length
  /-- The first byte of a word of small letters is its first character. -/
  capitals : ∀ word : List UInt8, word ≠ [] → word.all Text.Byte.isLower = true →
    ∃ c cs, (Text.Utf8.lossy word).toList = c :: cs ∧ c.utf8Size = 1
  controls : ∀ v ∈ Rule.Structure.controlStatements a, (v.tree.firstCode a.foci).isSome
  chains : ∀ t ∈ a.preorder, ∀ u ∈ Rule.Structure.openChains a.foci t.children,
    (u.firstCode a.foci).isSome
  /-- Each label of a function is a node of its body. -/
  labels : ∀ fn ∈ a.facts.functions, ∀ body, fn.body = some body →
    body.start < body.stop ∧ body.stop ≤ a.tokens.length ∧
      ∀ l ∈ fn.labels, ∃ v ∈ Rule.Keywords.bodyVisits fn body,
        v.tree.kind = .label ∧ v.tree.head.name = some l.token

theorem Source.inRange (s : Source) : s.InRange where
  scanners lineHasCode first rest := by simpa using (Token.Extent.of_cut lineHasCode first rest).le_length
  tokens t ht := by
    obtain ⟨before, after, -, hne, -, -, hs⟩ := Token.mem_tokenize ht
    have hpos := List.length_pos_iff.2 hne
    refine ⟨?_, (exact_iff.1 (exact_token ht)).2.1⟩
    simp only [hs, Span.between]
    omega
  errors e he := by
    obtain ⟨hle, hlen, -⟩ := exact_iff.1 (exact_lexError s e he)
    exact ⟨hle, hlen⟩
  places := s.lineStarts_passed
  lines number hpos hle := by
    obtain ⟨start, stop, h, hss, hlen⟩ := exists_lineRange hpos hle
    refine ⟨start, stop, h, hss, hlen, Nat.le_trans (Rule.trailingBlanks_le _) ?_⟩
    rw [slice, List.length_take]
    exact Nat.min_le_left _ _

namespace Analysis

variable (s : Source)

theorem treeInRange : (of s).TreeInRange where
  groups opening skip inFunction rest :=
    ⟨Nat.lt_of_le_of_lt (Nat.zero_le _) (BraceGroup.inside_lt_size _),
      BraceGroup.of_size_le opening skip inFunction rest⟩
  braces := BraceGroup.inside_balanced
  items inFunction first rest h := by
    obtain ⟨front, back, hall⟩ := h
    have hpart : first :: rest = ((Focus.all s.tokens).drop front.length).take (first :: rest).length := by
      have hall : Focus.all s.tokens = front ++ ((first :: rest) ++ back) := by
        rw [← List.append_assoc]
        exact hall.symm
      rw [hall, List.drop_left, List.take_left]
    have hcons := ((Focus.all_consecutive s.tokens).drop front.length).take (first :: rest).length
    rw [← hpart] at hcons
    have hahead : ItemDraft.Ahead (fun _ ↦ True) (0 + front.length) (rest.length + 1) 0 (first :: rest) :=
      ⟨hcons, fun _ _ ↦ trivial, by simp⟩
    exact Nat.le_of_lt_succ (ItemDraft.of_sound hahead inFunction).more_lt
  nodes t ht hk := RuleInput.node_range (r := ⟨of s, {}, fun _ ↦ false⟩) rfl ht hk

variable {s}

theorem borneIn_of_from {n : Name} (h : n.From (· ∈ (of s).foci)) : n.BorneIn (of s).tokens := by
  obtain ⟨f, hf, rfl⟩ := h
  have hall : f ∈ Focus.all s.tokens := Array.mem_toList_iff.2 hf
  exact ⟨f.token, (Focus.around hall).2.1, rfl, rfl⟩

variable (s)

theorem factsInRange : (of s).FactsInRange := by
  have h : (of s).facts.Sound s (of s).foci (of s).visits := Facts.of_sound s _ _ _
  constructor
  case functions =>
    intro fn hfn
    have hs := h.functions fn hfn
    exact ⟨borneIn_of_from hs.name, fun l hl ↦ borneIn_of_from (hs.label_from hl), fun g hg ↦
      ⟨borneIn_of_from (hs.goto_from hg).1, borneIn_of_from (hs.goto_from hg).2⟩⟩
  case objects => exact fun v hv ↦ borneIn_of_from (h.objects v hv)
  case prototypes => exact fun n hn ↦ borneIn_of_from (h.prototypes n hn)
  case types =>
    exact fun t ht ↦ ⟨fun n hn ↦ borneIn_of_from ((h.types t ht).1 n hn),
      fun n hn ↦ borneIn_of_from ((h.types t ht).2 n hn)⟩
  case enumConstants => exact fun n hn ↦ borneIn_of_from (h.enumConstants n hn)
  case parens => exact Declaration.parenContent_balanced 0
  case macros =>
    intro t ht
    obtain ⟨_, _, -, hne, -⟩ := Token.mem_tokenize ht
    have hpos := List.length_pos_iff.2 hne
    have hblanks := Facts.blanks_le (t.bytes.drop 1)
    rw [List.length_drop] at hblanks
    exact ⟨by omega, fun _ _ _ hm ↦ Facts.macroNameRange_bounds hm⟩
  case lines =>
    intro t ht
    obtain ⟨hstart, hend⟩ := (Source.exact_token ht).locates.lines
    refine ⟨hstart, hend, fun number hle hcount ↦ ?_⟩
    have hpos : 1 ≤ number := Nat.le_trans hstart hle
    have hzero : (number == 0) = false := by simpa using Nat.ne_of_gt hpos
    rw [Facts.line?, hzero]
    exact Facts.lineTable_line hpos hcount

theorem rulesInRange : (of s).RulesInRange := by
  have hr : (⟨of s, {}, fun _ ↦ false⟩ : RuleInput).file = of s := rfl
  have hlead {t : Tree} {word : String} (hw : t.leadKeyword (of s).foci = some word) :
      (t.firstCode (of s).foci).isSome := by
    obtain ⟨f, hf⟩ := Tree.firstCode_of_leadKeyword hw
    rw [hf]
    rfl
  constructor
  case around => exact fun f hf ↦ Focus.around (Array.mem_toList_iff.2 hf)
  case comments => exact fun t ht ↦ Token.delimiters_tokenize ht
  case words => exact fun bytes h ↦ ⟨Rule.bareWord_le _, Rule.firstWord_bounds h⟩
  case capitals => exact fun word ↦ Rule.lossy_lower
  case controls =>
    intro v hv
    obtain ⟨word, hw⟩ := Rule.controlStatements_lead hv
    exact hlead hw
  case chains =>
    exact fun t _ u hu ↦ hlead (Rule.leads_iff.1 (Rule.openChains_leads hu))
  case labels =>
    intro fn hfn body hb
    have hs := (RuleInput.facts_sound hr).functions fn hfn
    obtain ⟨hlt, hle⟩ := RuleInput.body_range hr hs hb
    exact ⟨hlt, hle, fun l hl ↦ Rule.label_node hr hs hb hl⟩

end Analysis

/-- The id under which failures of rules are reported is that of no rule that looks at files. -/
theorem Rule.id_ne_failure : ∀ rule ∈ Rule.builtin, rule.check.isSome → rule.id ≠ "ENGINE.RULE_FAILURE" := by
  decide

theorem SuppressionFault.ruleId_ne_failure (fault : SuppressionFault) :
    fault.ruleId ≠ "ENGINE.RULE_FAILURE" := by
  cases fault <;> simp [ruleId]

namespace Checker

variable {config : Config} {c : Checker} {polls : Polls} {source : Source}

theorem report_ne_failure (hc : ofConfig config = .ok c) {d : Diagnostic}
    (hd : d ∈ (c.report source (c.outcomes polls (Analysis.of source))).everything) :
    d.ruleId ≠ "ENGINE.RULE_FAILURE" := by
  cases report_origin hd with
  | @found e o f he hf =>
    obtain ⟨⟨e', k⟩, hk, heq⟩ := List.mem_map.1 he
    cases heq
    obtain ⟨hmem, hon⟩ := List.mem_filter.1 (evaluated_mem hk)
    refine Rule.id_ne_failure e.rule ?_ (Bool.and_eq_true_iff.1 hon).2
    rw [← ofConfig_rules hc]
    exact List.mem_map_of_mem hmem
  | failed he hf _ =>
    rw [(outcomes_sound hc he).failure] at hf
    cases hf
  | misdirected _ _ hid =>
    rw [hid]
    exact SuppressionFault.ruleId_ne_failure _

end Checker

end CodeStyle
