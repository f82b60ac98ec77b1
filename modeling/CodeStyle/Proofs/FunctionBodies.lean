import CodeStyle.Proofs.BuiltinRules
import CodeStyle.Proofs.StatementHeads

/-!
The block that the facts of a function are read from. A function ends with the block that is its body, but
its labels and its `goto`s are those of its first block. The two are the same unless a brace stands before
the body, as in a function that returns a structure it defines itself.
-/

namespace CodeStyle

namespace Facts

variable {foci : Array Focus} {region rest : List Focus} {g : GotoFact}

/-- A `goto` and the identifier that is the next code behind it. -/
structure Jump (all : List Focus) (k t : Focus) : Prop where
  keyword : k.token.isKeyword "goto" = true
  target : t.token.isIdentifier = true
  next : Focus.NextCode all k t

theorem gotos_cons {f : Focus} : g ∈ gotos (f :: rest) ↔
    (f.token.isKeyword "goto" = true ∧ ∃ t, rest.find? Focus.isCode = some t ∧ t.token.isIdentifier = true ∧
      g = ⟨Name.ofFocus f, Name.ofFocus t⟩) ∨ g ∈ gotos rest := by
  rw [gotos]
  split
  · rename_i target hkeyword htarget
    obtain ⟨hfind, hidentifier⟩ := Option.filter_eq_some_iff.1 htarget
    simp [hkeyword, hfind, hidentifier]
  · rename_i hno
    refine (or_iff_right ?_).symm
    rintro ⟨hkeyword, t, hfind, hidentifier, -⟩
    exact hno t hkeyword (Option.filter_eq_some_iff.2 ⟨hfind, hidentifier⟩)

theorem mem_gotos (h : region.Pairwise fun f q ↦ f.index < q.index) :
    g ∈ gotos region ↔ ∃ k ∈ region, ∃ t ∈ region, Jump region k t ∧ g = ⟨Name.ofFocus k, Name.ofFocus t⟩ := by
  induction region with
  | nil => simp [gotos]
  | cons f rest ih =>
    obtain ⟨hfirst, hrest⟩ := List.pairwise_cons.1 h
    rw [gotos_cons, ih hrest]
    constructor
    · rintro (⟨hkeyword, t, hfind, hidentifier, rfl⟩ | ⟨k, hk, t, ht, hjump, rfl⟩)
      · obtain ⟨ht, hnext⟩ := (Focus.find?_isCode h).1 hfind
        exact ⟨f, by simp, t, by simp [ht], ⟨hkeyword, hidentifier, hnext⟩, rfl⟩
      · refine ⟨k, by simp [hk], t, by simp [ht], ⟨hjump.keyword, hjump.target, hjump.next.lt, hjump.next.isCode,
          fun r hr hlow hhigh ↦ ?_⟩, rfl⟩
        rcases List.mem_cons.1 hr with rfl | hr
        · exact absurd hlow (Nat.lt_asymm (hfirst k hk))
        · exact hjump.next.between r hr hlow hhigh
    · rintro ⟨k, hk, t, ht, hjump, rfl⟩
      have hlt := hjump.next.lt
      have htail : t ∈ rest := by
        refine (List.mem_cons.1 ht).resolve_left ?_
        rintro rfl
        rcases List.mem_cons.1 hk with rfl | hin
        · exact Nat.lt_irrefl _ hlt
        · exact Nat.lt_asymm hlt (hfirst k hin)
      rcases List.mem_cons.1 hk with rfl | hin
      · left
        exact ⟨hjump.keyword, t, (Focus.find?_isCode h).2 ⟨htail, hjump.next⟩, hjump.target, rfl⟩
      · right
        exact ⟨k, hin, t, htail, ⟨hjump.keyword, hjump.target, hlt, hjump.next.isCode,
          fun r hr ↦ hjump.next.between r (by simp [hr])⟩, rfl⟩

theorem gotos_sorted (h : region.Pairwise fun f q ↦ f.index < q.index) :
    (gotos region).Pairwise fun a b ↦ a.keyword.token < b.keyword.token := by
  fun_induction gotos region with
  | case1 => exact .nil
  | case2 f rest _ target htarget _ ih =>
    obtain ⟨hfirst, hrest⟩ := List.pairwise_cons.1 h
    refine .cons (fun g hg ↦ ?_) (ih hrest)
    obtain ⟨⟨q, hq, hname⟩, -⟩ := gotos_from (P := (· ∈ rest)) (fun _ hq ↦ hq) g hg
    rw [hname]
    exact hfirst q hq
  | case3 f rest _ _ ih => exact ih (List.pairwise_cons.1 h).2

theorem node_of_function {source : Source} {v : Visit} {fn : FunctionFact}
    (hfn : fn ∈ (ofVisit source foci v).functions) : fn.node = v ∧ v.tree.kind = .functionDefinition := by
  unfold ofVisit addVisit at hfn
  split at hfn
  case h_1 hkind =>
    unfold addFunction at hfn
    split at hfn
    case h_1 => cases hfn
    case h_2 =>
      cases List.mem_singleton.1 hfn
      exact ⟨rfl, hkind⟩
  all_goals cases hfn

end Facts

namespace Analysis

variable {s : Source} {block t : Tree} {v : Visit} {n : Name}

/-- The items of a node in order start one behind another. -/
theorem items_sorted (hb : block ∈ (of s).preorder) : (block.children.flatMap Tree.preorder).Pairwise fun t u ↦
    t.kind.isItem = true → u.kind.isItem = true → t.start < u.start := by
  have hwithin : Tree.Within (NodeHead.Named (· ∈ Focus.all s.tokens)) block.start block.stop block.children :=
    Tree.within_node hb
  have hsorted := List.pairwise_map.1 hwithin.starts_sorted
  refine (hsorted.and hwithin.owns_pairwise).imp_of_mem fun {t u} ht hu h hitem hitem' ↦ ?_
  have howns {t : Tree} (ht : t ∈ block.children.flatMap Tree.preorder) (hitem : t.kind.isItem = true) :
      t.Owns t.start := by
    have hmem : t ∈ block.preorder := Tree.mem_preorder_iff.2 (.inr (List.mem_flatMap.1 ht))
    exact (Tree.itemized_ofFoci s.tokens t (Tree.preorder_subset hb hmem) hitem).start
  refine Nat.lt_of_le_of_ne h.1 fun heq ↦ ?_
  exact h.2 t.start (howns ht hitem) (heq ▸ howns hu hitem')

/-- The items of a block are those in its range. -/
theorem item_mem_block (hv : v ∈ (of s).visits) (hkind : v.tree.kind = .braceBlock) (hitem : t.kind.isItem = true) :
    t ∈ v.tree.preorder ↔ t ∈ (of s).preorder ∧ v.tree.start ≤ t.start ∧ t.stop ≤ v.tree.stop := by
  have hb : v.tree ∈ (of s).preorder := List.mem_map_of_mem hv
  constructor
  · exact fun ht ↦ ⟨Tree.preorder_subset hb ht, range_of_mem hb ht⟩
  · rintro ⟨ht, hlow, hhigh⟩
    have hlt := (Tree.itemized_ofFoci s.tokens t ht hitem).start.2.1
    have hin : t.covers t.start = true := Tree.covers_iff.2 ⟨Nat.le_refl _, hlt⟩
    have hin' : v.tree.covers t.start = true := Tree.covers_iff.2 ⟨hlow, Nat.lt_of_lt_of_le hlt hhigh⟩
    rcases mem_or_above hv ht hin' hin with hmem | habove
    · exact hmem
    · have hne : v.tree ≠ t := by
        rintro rfl
        rw [hkind] at hitem
        cases hitem
      have hinside := start_lt_of_item ht hitem (Tree.mem_preorder_of_above hv habove).2 hne
      exact absurd hlow (Nat.not_le.2 hinside)

/-- The name of a label is its first token. -/
theorem label_name (ht : t ∈ (of s).preorder) (hkind : t.kind = .label) :
    (t.head.name.bind ((of s).foci[·]?)).map Name.ofFocus = some n ↔
      ∃ f ∈ Focus.all s.tokens, f.index = t.start ∧ n = Name.ofFocus f := by
  have hname := (Tree.led_ofFoci s.tokens t ht (by rw [hkind]; rfl)).label hkind
  simp only [hname, Option.bind_some, Option.map_eq_some_iff, getElem_foci, mem_foci, and_assoc, eq_comm (a := n)]
  rfl

theorem mem_labels (hv : v ∈ (of s).visits) (hkind : v.tree.kind = .braceBlock) :
    n ∈ Facts.labels (of s).foci v.tree ↔ ∃ t ∈ (of s).preorder, t.kind = .label ∧ v.tree.start ≤ t.start ∧
      t.stop ≤ v.tree.stop ∧ ∃ f ∈ Focus.all s.tokens, f.index = t.start ∧ n = Name.ofFocus f := by
  rw [Facts.labels, List.mem_filterMap]
  constructor
  · rintro ⟨t, ht, hn⟩
    split at hn
    · rename_i hlabel
      have hlabel := eq_of_beq hlabel
      obtain ⟨hmem, hlow, hhigh⟩ := (item_mem_block hv hkind (by rw [hlabel]; rfl)).1 ht
      exact ⟨t, hmem, hlabel, hlow, hhigh, (label_name hmem hlabel).1 hn⟩
    · cases hn
  · rintro ⟨t, hmem, hlabel, hlow, hhigh, hn⟩
    refine ⟨t, (item_mem_block hv hkind (by rw [hlabel]; rfl)).2 ⟨hmem, hlow, hhigh⟩, ?_⟩
    rw [if_pos (beq_iff_eq.2 hlabel)]
    exact (label_name hmem hlabel).2 hn

theorem labels_sorted (hb : block ∈ (of s).preorder) (hkind : block.kind = .braceBlock) :
    (Facts.labels (of s).foci block).Pairwise fun a b ↦ a.token < b.token := by
  have hself : (block.kind == .label) = false := by
    rw [hkind]
    rfl
  have hmem {t : Tree} (ht : t ∈ block.children.flatMap Tree.preorder) : t ∈ (of s).preorder :=
    Tree.preorder_subset hb (Tree.mem_preorder_iff.2 (.inr (List.mem_flatMap.1 ht)))
  rw [Facts.labels, Tree.preorder_eq_cons, List.filterMap_cons_none (by simp [hself]), List.pairwise_filterMap]
  refine (items_sorted hb).imp_of_mem fun {t u} ht hu hlt a ha b hb ↦ ?_
  split at ha
  · split at hb
    · rename_i hlabel hlabel'
      have hlabel := eq_of_beq hlabel
      have hlabel' := eq_of_beq hlabel'
      obtain ⟨f, -, hindex, rfl⟩ := (label_name (hmem ht) hlabel).1 ha
      obtain ⟨q, -, hindex', rfl⟩ := (label_name (hmem hu) hlabel').1 hb
      show f.index < q.index
      rw [hindex, hindex']
      exact hlt (by rw [hlabel]; rfl) (by rw [hlabel']; rfl)
    · cases hb
  · cases ha

theorem foci_sorted (s : Source) (block : Tree) : (block.foci (of s).foci).Pairwise fun f q ↦ f.index < q.index := by
  rw [node_foci]
  exact ((Focus.stretch_placed _ _ _).consecutive (Focus.all_consecutive s.tokens)).sorted

theorem mem_gotos {g : GotoFact} : g ∈ Facts.gotos (block.foci (of s).foci) ↔
    ∃ k ∈ Focus.all s.tokens, ∃ t ∈ Focus.all s.tokens, block.covers k.index = true ∧ block.covers t.index = true ∧
      Facts.Jump (Focus.all s.tokens) k t ∧ g = ⟨Name.ofFocus k, Name.ofFocus t⟩ := by
  rw [Facts.mem_gotos (foci_sorted s block)]
  simp only [mem_node_foci]
  constructor
  · rintro ⟨k, ⟨hk, hkin⟩, t, ⟨ht, htin⟩, hjump, rfl⟩
    refine ⟨k, hk, t, ht, hkin, htin, ⟨hjump.keyword, hjump.target, hjump.next.lt, hjump.next.isCode,
      fun r hr hlow hhigh ↦ hjump.next.between r (mem_node_foci.2 ⟨hr, ?_⟩) hlow hhigh⟩, rfl⟩
    rw [Tree.covers_iff] at hkin htin ⊢
    omega
  · rintro ⟨k, hk, t, ht, hkin, htin, hjump, rfl⟩
    exact ⟨k, ⟨hk, hkin⟩, t, ⟨ht, htin⟩, ⟨hjump.keyword, hjump.target, hjump.next.lt, hjump.next.isCode,
      fun r hr ↦ hjump.next.between r (mem_node_foci.1 hr).1⟩, rfl⟩

end Analysis

/-- The labels and the `goto`s of a function are those of a block, in order. -/
structure FunctionFact.ReadFrom (s : Source) (block : Tree) (fn : FunctionFact) : Prop where
  body : fn.body = some block
  labels : ∀ n, n ∈ fn.labels ↔ ∃ t ∈ (Analysis.of s).preorder, t.kind = .label ∧ block.start ≤ t.start ∧
    t.stop ≤ block.stop ∧ ∃ f ∈ Focus.all s.tokens, f.index = t.start ∧ n = Name.ofFocus f
  labels_sorted : fn.labels.Pairwise fun a b ↦ a.token < b.token
  gotos : ∀ g, g ∈ fn.gotos ↔ ∃ k ∈ Focus.all s.tokens, ∃ t ∈ Focus.all s.tokens, block.covers k.index = true ∧
    block.covers t.index = true ∧ Facts.Jump (Focus.all s.tokens) k t ∧ g = ⟨Name.ofFocus k, Name.ofFocus t⟩
  gotos_sorted : fn.gotos.Pairwise fun a b ↦ a.keyword.token < b.keyword.token

namespace Analysis

variable {s : Source} {fn : FunctionFact} {block : Tree}

theorem readFrom_body (hfn : fn.Sound (of s).foci (of s).visits) (hbody : fn.body = some block) :
    fn.ReadFrom s block := by
  obtain ⟨hkind, hvisit⟩ := hfn.body_visit hbody
  have hblock : block ∈ (of s).preorder := List.mem_map_of_mem hvisit
  have hlabels := hfn.labels
  have hgotos := hfn.gotos
  rw [hbody, Option.map_some, Option.getD_some] at hlabels hgotos
  constructor
  case body => exact hbody
  case labels =>
    intro n
    rw [hlabels]
    exact mem_labels hvisit hkind
  case labels_sorted =>
    rw [hlabels]
    exact labels_sorted hblock hkind
  case gotos =>
    intro g
    rw [hgotos]
    exact mem_gotos
  case gotos_sorted =>
    rw [hgotos]
    exact Facts.gotos_sorted (foci_sorted s block)

/-- The first block of an item is another block of it if and only if no brace stands before that one. -/
theorem first_block_iff (herrors : (of s).delimiterErrors = []) {t first own : Tree} {rest : List Tree}
    (ht : t ∈ (of s).preorder) (hitem : t.kind.isItem = true) (hchildren : t.children = first :: rest)
    (hown : own ∈ t.children) :
    first = own ↔ ∀ f ∈ Focus.all s.tokens, t.start ≤ f.index → f.index < own.start → Braces.Plain f := by
  have hall := Focus.all_consecutive s.tokens
  have hwithin : Tree.Within (NodeHead.Named (· ∈ Focus.all s.tokens)) t.start t.stop t.children := Tree.within_node ht
  have hfirst : first ∈ t.children := by simp [hchildren]
  constructor
  · rintro rfl f hf hlow hhigh
    have hhead := (Tree.opened_ofFoci herrors t ht hitem).head first.head (by simp [hchildren])
    exact hhead.plain f ((Focus.mem_stretch hall).2 ⟨hf, hlow, hhigh⟩)
  · intro hplain
    by_contra hne
    have hmem : own ∈ rest := (List.mem_cons.1 (hchildren ▸ hown)).resolve_left (Ne.symm hne)
    have hapart := hwithin.pairwise
    rw [hchildren] at hapart
    have hbefore := (List.pairwise_cons.1 hapart).1 own hmem
    obtain ⟨hlow, hlt, -⟩ := hwithin.of_mem hfirst (Tree.self_mem_preorder first)
    have hkind := (Tree.itemized_ofFoci s.tokens t ht hitem).blocks first.head (List.mem_map_of_mem hfirst)
    obtain ⟨f, hf, hindex, hbrace⟩ :=
      (Tree.bracketed_ofFoci s.tokens first (Tree.child_mem_preorder ht hfirst) hkind).brace
    have hindex : f.index = first.start := hindex
    exact hbrace (hplain f hf (by omega) (by omega))

/-- A function ends with its body, and its facts are those of its first block. The first block is the body if
and only if no brace stands before the body. -/
theorem function_facts_first_block (s : Source) (herrors : (of s).delimiterErrors = []) (fn : FunctionFact)
    (hfn : fn ∈ (of s).facts.functions) :
    fn.node ∈ (of s).visits ∧ fn.node.tree.kind = .functionDefinition ∧
      ∃ first ∈ fn.node.tree.children, ∃ own ∈ fn.node.tree.children, first.kind = .braceBlock ∧ fn.ReadFrom s first ∧
        own.kind = .braceBlock ∧ own.stop = fn.node.tree.stop ∧
        (first = own ↔ ∀ f ∈ Focus.all s.tokens, fn.node.tree.start ≤ f.index → f.index < own.start →
          Braces.Plain f) := by
  have hsound := (RuleInput.facts_sound (r := ⟨of s, default, fun _ ↦ false⟩) rfl).functions fn hfn
  rw [functions_eq] at hfn
  obtain ⟨v, hv, hfn⟩ := List.mem_flatMap.1 hfn
  obtain ⟨rfl, hkind⟩ := Facts.node_of_function hfn
  have hnode : fn.node.tree ∈ (of s).preorder := List.mem_map_of_mem hv
  have hitem : fn.node.tree.kind.isItem = true := by
    rw [hkind]
    rfl
  obtain ⟨front, last, hlast, hstop⟩ := (Tree.opened_ofFoci herrors fn.node.tree hnode hitem).function hkind
  have hmem : last ∈ fn.node.tree.children.map Tree.head := by simp [hlast]
  obtain ⟨own, hown, rfl⟩ := List.mem_map.1 hmem
  have hblocks : ∀ c ∈ fn.node.tree.children, c.kind = .braceBlock := fun c hc ↦
    (Tree.itemized_ofFoci s.tokens _ hnode hitem).blocks c.head (List.mem_map_of_mem hc)
  obtain ⟨first, rest, hchildren⟩ := List.exists_cons_of_ne_nil (List.ne_nil_of_mem hown)
  have hfirst : first ∈ fn.node.tree.children := by simp [hchildren]
  have hbody : fn.body = some first := by
    rw [hsound.body, block_of_item hnode hitem, hchildren, List.head?_cons]
  exact ⟨hv, hkind, first, hfirst, own, hown, hblocks first hfirst, readFrom_body hsound hbody, hblocks own hown, hstop,
    first_block_iff herrors hnode hitem hchildren hown⟩

/-- A function with one block, out of which it reads a label and a jump to it. -/
theorem function_facts_only_block :
    ∃ s : Source, s.bytes = Text.bytesOf "void f()\x7bgoto x;x:;\x7d" ∧ (of s).delimiterErrors = [] ∧
      ∃ fn ∈ (of s).facts.functions, fn.labels.map Name.text = ["x"] ∧ fn.gotos.length = 1 ∧
        ∃ first ∈ fn.node.tree.children, ∃ own ∈ fn.node.tree.children, fn.ReadFrom s first ∧
          own.stop = fn.node.tree.stop ∧
          (first = own ↔ ∀ f ∈ Focus.all s.tokens, fn.node.tree.start ≤ f.index → f.index < own.start →
            Braces.Plain f) := by
  let s : Source := ⟨"", Text.bytesOf "void f()\x7bgoto x;x:;\x7d"⟩
  have herrors : (of s).delimiterErrors = [] := by decide +kernel
  obtain ⟨fn, hfn, hlabels, hgotos⟩ : ∃ fn ∈ (of s).facts.functions, fn.labels.map Name.text = ["x"] ∧
      fn.gotos.length = 1 := by
    decide +kernel
  obtain ⟨-, -, first, hfirst, own, hown, -, hread, -, hstop, hiff⟩ := function_facts_first_block s herrors fn hfn
  exact ⟨s, rfl, herrors, fn, hfn, hlabels, hgotos, first, hfirst, own, hown, hread, hstop, hiff⟩

/-- A function that returns a structure it defines itself: the block of the structure is taken for its body, and
the label in its own body is not among its labels. -/
theorem function_facts_returned_struct :
    ∃ s : Source, s.bytes = Text.bytesOf "struct s\x7bint a;\x7df()\x7bgoto x;x:;\x7d" ∧ (of s).delimiterErrors = [] ∧
      ∃ fn ∈ (of s).facts.functions, fn.body.map Tree.stop ≠ some fn.node.tree.stop ∧ fn.labels = [] ∧ fn.gotos = [] ∧
        ∃ own ∈ fn.node.tree.children, own.kind = .braceBlock ∧ own.stop = fn.node.tree.stop ∧
          ∃ t ∈ own.preorder, t.kind = .label := by
  refine ⟨⟨"", Text.bytesOf "struct s\x7bint a;\x7df()\x7bgoto x;x:;\x7d"⟩, rfl, ?_, ?_⟩
  · decide +kernel
  · decide +kernel

end Analysis

end CodeStyle
