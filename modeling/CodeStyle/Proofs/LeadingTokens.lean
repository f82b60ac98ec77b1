import CodeStyle.Proofs.Enclosure

/-!
The code with which nodes start. An item of code starts with its first token, a block with a brace, and what
starts with the keyword of a control statement is a statement, or a conditional around one.
-/

namespace CodeStyle

/-- The keyword of a control statement. -/
def Token.startsControl (t : Token) : Bool := t.kind == .keyword && controlKeywords.contains t.text

namespace Token

variable {t : Token}

theorem startsControl_of_isKeyword {word : String} (h : t.isKeyword word = true)
    (hword : controlKeywords.contains word = true) : t.startsControl = true := by
  simp only [isKeyword, Bool.and_eq_true, beq_iff_eq] at h
  simp only [startsControl, h.1, h.2, hword, beq_self_eq_true, Bool.and_self]

end Token

namespace ItemDraft

theorem scan_control {m : Mode} (hcontrol : m.isControl = true) (hkind : m.kind = .statement) (offset : Nat)
    (p : Progress) (region : List Focus) : (scan m offset p region).kind = .statement := by
  fun_induction scan m offset p region with
  | case3 | case4 | case5 | case6 | case7 | case8 | case10 | case11 | case17 => assumption
  | case9 => simp [Progress.finish, hkind]
  | case1 | case2 | case12 | case16 => exact hkind
  | case13 | case14 | case15 => contradiction

variable {inFunction : Bool} {first : Focus} {rest : List Focus}

/-- A control statement is read as one. -/
theorem of_startsControl (h : first.token.startsControl = true) : of inFunction first rest =
    scan ⟨.statement, first.token.text, true, inFunction, first.index⟩ 0 Progress.start (first :: rest) := by
  simp only [Token.startsControl, Bool.and_eq_true, beq_iff_eq] at h
  have hcomment : first.token.isComment = false := by simp [Token.isComment, Token.Kind.isComment, h.1]
  have hidentifier : first.token.isIdentifier = false := by simp [Token.isIdentifier, h.1]
  have hcase : first.token.text ≠ "case" ∧ first.token.text ≠ "default" := by
    constructor <;> intro ht <;> rw [ht] at h <;> exact absurd h.2 (by decide)
  rw [of, if_neg (by simp [hcomment]), if_neg (by simp [h.1]), statement]
  simp only [hidentifier, Bool.and_false, Bool.false_and, h.1, beq_self_eq_true, if_true, h.2]
  rw [if_neg (by simp [hcase])]

/-- An item is read by a scan, or has no blocks. -/
theorem of_cases (inFunction : Bool) (first : Focus) (rest : List Focus) :
    ((of inFunction first rest).groups = [] ∧ (of inFunction first rest).kind ≠ .functionDefinition ∧
      ((of inFunction first rest).kind = .label → (of inFunction first rest).name = some first.index)) ∨
    ∃ kind lead isControl, kind ∈ [NodeKind.typeDefinition, .declaration, .statement] ∧
      of inFunction first rest =
        scan ⟨kind, lead, isControl, inFunction, first.index⟩ 0 Progress.start (first :: rest) := by
  unfold of
  split
  · exact .inl (by simp [plain])
  · split
    · left
      dsimp only [plain]
      split <;> simp
    · fun_cases statement inFunction first rest with
      | case1 => exact .inl (by simp)
      | case2 => exact .inl (by simp [plain])
      | case3 _ _ _ lead _ isControl kind =>
        refine .inr ⟨kind, lead, isControl, ?_, rfl⟩
        unfold kind
        split
        · simp
        · exact classify_mem _ _

/-- Only items of code have blocks. -/
theorem of_groups (h : (of inFunction first rest).groups ≠ []) :
    (of inFunction first rest).kind.leads = Token.isCode := by
  rcases of_cases inFunction first rest with hno | ⟨kind, lead, isControl, hkind, hscan⟩
  · exact absurd hno.1 h
  · have hmem := scan_kind ⟨kind, lead, isControl, inFunction, first.index⟩ 0 Progress.start (first :: rest)
    rw [← hscan] at hmem
    simp only [List.mem_cons, List.not_mem_nil, or_false] at hmem hkind
    rcases hmem with hmem | hmem | hmem <;> rw [hmem]
    · rcases hkind with rfl | rfl | rfl <;> rfl
    · rfl
    · rfl

/-- A label is named by its first token. -/
theorem of_label (h : (of inFunction first rest).kind = .label) :
    (of inFunction first rest).name = some first.index := by
  rcases of_cases inFunction first rest with hno | ⟨kind, lead, isControl, hkind, hscan⟩
  · exact hno.2.2 h
  · have hmem := scan_kind ⟨kind, lead, isControl, inFunction, first.index⟩ 0 Progress.start (first :: rest)
    rw [← hscan, h] at hmem
    simp only [List.mem_cons, List.not_mem_nil, or_false, reduceCtorEq] at hmem
    rw [← hmem] at hkind
    exact absurd hkind (by decide)

end ItemDraft

/-- An item over the nodes `inner` that is told by its first token. -/
structure NodeHead.Led (P : Focus → Prop) (h : NodeHead) (inner : List NodeHead) : Prop extends
    h.Itemized P inner where
  control : ∀ f, P f → f.index = h.start → f.token.startsControl = true → h.kind = .statement
  code : inner ≠ [] → h.kind.leads = Token.isCode
  label : h.kind = .label → h.name = some h.start

theorem Forest.item_led {P : Focus → Prop} {i : Nat} {f : Focus} {rest : List Focus}
    (hc : Focus.Consecutive i (f :: rest)) (hP : ∀ q ∈ f :: rest, P q)
    (huniq : ∀ q, P q → q.index = f.index → q = f)
    (hread : (f.token.isTrivia || f.token.kind.isInvalid) = false) (hplain : Braces.Plain f) (inFunction : Bool)
    {d : ItemDraft} (hd : ItemDraft.of inFunction f rest = d) (content : BraceGroup → Forest) :
    ∀ o ∈ (item f d ((d.groups.map fun g ↦ block g (content g)).foldl append empty)).nodes,
      o.head.Led P (o.children.map Outline.head) := by
  intro o ho
  refine ⟨item_itemized hc hP hread hplain inFunction hd content o ho, ?_, ?_, ?_⟩ <;>
    cases List.mem_singleton.1 ho
  · intro q hq hindex hcontrol
    obtain rfl := huniq q hq hindex
    show d.kind = .statement
    rw [← hd, ItemDraft.of_startsControl hcontrol]
    exact ItemDraft.scan_control rfl rfl _ _ _
  · intro hinner
    rw [Outline.children, heads_blocks, ne_eq, List.map_eq_nil_iff] at hinner
    subst hd
    exact ItemDraft.of_groups hinner
  · intro hkind
    subst hd
    exact ItemDraft.of_label hkind

theorem Tree.led_ofFoci (tokens : List Token) :
    ∀ t ∈ (ofOutline (Outline.ofFoci (Focus.all tokens)).1).preorder, t.kind.isItem = true →
      t.head.Led (· ∈ Focus.all tokens) (t.children.map head) := by
  have hall := Focus.all_consecutive tokens
  refine items_ofFoci (E := fun _ ↦ True) tokens (fun _ _ h ↦ h.blocks) ?_ fun _ _ ↦ trivial
  intro i f rest hc hregion hread hplain inFunction d hd _
  exact Forest.item_led hc hregion.mem (fun q hq hindex ↦ hall.eq_of_index hq (hregion.mem f (by simp)) hindex) hread
    hplain inFunction hd

namespace Analysis

variable {s : Source} {t : Tree} {f : Focus} {word : String}

theorem firstCode_of_start (hf : f ∈ Focus.all s.tokens) (hindex : f.index = t.start) (hlt : t.start < t.stop)
    (hcode : f.isCode = true) : t.firstCode (of s).foci = some f := by
  have hget : (of s).foci[t.start]? = some f := getElem_foci.2 ⟨mem_foci.2 hf, hindex⟩
  obtain ⟨n, hn⟩ := Nat.exists_eq_add_of_lt hlt
  have hsize : t.size = n + 1 := by
    unfold Tree.size
    omega
  rw [Tree.firstCode, hsize, firstCodeFrom, hget]
  exact if_pos hcode

theorem leadKeyword_eq (hf : t.firstCode (of s).foci = some f) :
    t.leadKeyword (of s).foci = some word ↔ f.token.isKeyword word = true := by
  rw [Tree.leadKeyword, hf]
  by_cases hk : f.token.kind = .keyword <;> simp [Token.isKeyword, hk]

/-- The code of an item of code starts with its first token. -/
theorem firstCode_of_leads (ht : t ∈ (of s).preorder) (hitem : t.kind.isItem = true)
    (hleads : t.kind.leads = Token.isCode) :
    ∃ f ∈ Focus.all s.tokens, f.index = t.start ∧ t.firstCode (of s).foci = some f := by
  have hled := Tree.led_ofFoci s.tokens t ht hitem
  obtain ⟨f, hf, hindex, hcode⟩ := hled.leads
  exact ⟨f, hf, hindex, firstCode_of_start hf hindex hled.start.2.1 ((congrFun hleads f.token).symm.trans hcode)⟩

theorem firstCode_statement (ht : t ∈ (of s).preorder) (hkind : t.kind = .statement) :
    t.firstCode (of s).foci = some f ↔ f ∈ Focus.all s.tokens ∧ f.index = t.start := by
  obtain ⟨g, hg, hindex, hfirst⟩ := firstCode_of_leads ht (by rw [hkind]; rfl) (by rw [hkind]; rfl)
  rw [hfirst, Option.some.injEq]
  constructor
  · rintro rfl
    exact ⟨hg, hindex⟩
  · rintro ⟨hf, hindex'⟩
    exact (Focus.all_consecutive s.tokens).eq_of_index hg hf (hindex.trans hindex'.symm)

/-- A node with children whose code starts with the keyword of a control statement is a statement or a
conditional. -/
theorem kind_of_lead (ht : t ∈ (of s).preorder) (hroot : t ≠ (of s).tree) (hchildren : t.children ≠ [])
    (hlead : t.leadKeyword (of s).foci = some word) (hword : Token.controlKeywords.contains word = true) :
    t.kind = .statement ∨ t.kind = .preprocessorBlock := by
  cases hitem : t.kind.isItem with
  | true =>
    left
    have hled := Tree.led_ofFoci s.tokens t ht hitem
    obtain ⟨f, hf, hindex, hfirst⟩ := firstCode_of_leads ht hitem (hled.code (by simpa using hchildren))
    exact hled.control f hf hindex (Token.startsControl_of_isKeyword ((leadKeyword_eq hfirst).1 hlead) hword)
  | false =>
    cases hkind : t.kind with
    | preprocessorBlock => exact .inr rfl
    | translationUnit => exact absurd (Tree.eq_root_of_kind ht hkind) hroot
    | braceBlock =>
      obtain ⟨f, hf, hindex, hbrace⟩ := (Tree.bracketed_ofFoci s.tokens t ht hkind).brace
      have hfirst := firstCode_of_start hf hindex (Tree.range_node ht hroot).1 (Braces.isCode_of_not_plain hbrace)
      have hkeyword := (leadKeyword_eq hfirst).1 hlead
      simp only [Token.isKeyword, Bool.and_eq_true, beq_iff_eq] at hkeyword
      refine absurd ?_ hbrace
      constructor <;> simp [Token.isPunct, hkeyword.1]
    | statement | declaration | functionDefinition | typeDefinition | macroDefinition | commentBlock | directive
      | label =>
      rw [hkind] at hitem
      cases hitem

end Analysis

end CodeStyle
