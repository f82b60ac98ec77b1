import CodeStyle.Proofs.BuiltinRules
import CodeStyle.Proofs.StatementHeads
import CodeStyle.Proofs.TokenOwners

/-!
Bodies without braces that go unreported. Of a file that is read without errors and in which no body is
reported, every control keyword with a parenthesis behind it has a brace behind the parenthesis, but for
those that do not start the statement they belong to, and those of a statement that goes on before its
block.
-/

namespace CodeStyle

open Braces (Plain)

/-- A token with a parenthesis behind it, from `o` to `c`. -/
structure Focus.Parenthesized (all : List Focus) (k o c : Focus) : Prop where
  next : NextCode all k o
  opens : o.token.isPunct "(" = true
  closes : c.token.isPunct ")" = true
  lt : o.index < c.index
  nested : Nested (between all (o, c))

instance (all : List Focus) (k o c : Focus) : Decidable (Focus.Parenthesized all k o c) :=
  decidable_of_iff (Focus.NextCode all k o ∧ o.token.isPunct "(" = true ∧ c.token.isPunct ")" = true ∧
      o.index < c.index ∧ Nested (between all (o, c)))
    ⟨fun h ↦ ⟨h.1, h.2.1, h.2.2.1, h.2.2.2.1, h.2.2.2.2⟩, fun h ↦ ⟨h.next, h.opens, h.closes, h.lt, h.nested⟩⟩

namespace StatementHead

variable {all : List Focus} {start stop : Nat}

/-- A parenthesis that opens before the block of a statement is closed before it. -/
theorem close_lt {o c : Focus} (h : StatementHead [] (Focus.stretch all start stop)) (hall : Focus.Consecutive 0 all)
    (ho : o ∈ all) (hopens : o.token.isPunct "(" = true) (hlow : start ≤ o.index) (hhigh : o.index < stop)
    (hnested : Nested (between all (o, c))) : c.index < stop := by
  by_contra hlate
  have hhead := h.nested
  rw [Focus.stretch_append hlow (Nat.le_of_lt hhigh), Focus.stretch_cons hall ho hhigh, nest_append] at hhead
  obtain ⟨outer, -, hhead⟩ := Option.bind_eq_some_iff.1 hhead
  rw [nest_cons, nestStep_opens (Token.opens?_of_isPunct hopens), Option.bind_some] at hhead
  have hbetween : between all (o, c) = Focus.stretch all (o.index + 1) c.index := by
    rw [between, Focus.stretch, Nat.sub_sub]
  rw [Nested, hbetween, Focus.stretch_append hhigh (Nat.not_lt.1 hlate), nest_append] at hnested
  -- up to the block the parenthesis is not closed
  obtain ⟨inner, hinner, -⟩ := Option.bind_eq_some_iff.1 hnested
  have hopen := nest_append_stack hinner (')' :: outer)
  rw [List.nil_append, hhead] at hopen
  simp at hopen

end StatementHead

theorem Tree.isItem_of_isControl {foci : Array Focus} (t : Tree) (h : t.isControl foci = true) :
    t.kind.isItem = true := by
  simp only [Tree.isControl, Bool.and_eq_true, beq_iff_eq] at h
  rw [h.1]
  rfl

namespace Analysis

variable {s : Source} {t : Tree} {k : Focus}

theorem lead_of_control (ht : t ∈ (of s).preorder) (hcontrol : t.isControl (of s).foci = true) :
    ∃ f ∈ Focus.all s.tokens, f.index = t.start ∧ f.token.startsControl = true ∧
      t.leadKeyword (of s).foci = some f.token.text := by
  simp only [Tree.isControl, Bool.and_eq_true, beq_iff_eq, Option.any_eq_true] at hcontrol
  obtain ⟨hkind, word, hlead, hword⟩ := hcontrol
  obtain ⟨f, hfirst⟩ := Tree.firstCode_of_leadKeyword hlead
  obtain ⟨hf, hindex⟩ := (firstCode_statement ht hkind).1 hfirst
  have hkeyword := (leadKeyword_eq hfirst).1 hlead
  have htext : f.token.text = word := by
    simp only [Token.isKeyword, Bool.and_eq_true, beq_iff_eq] at hkeyword
    exact hkeyword.2
  exact ⟨f, hf, hindex, Token.startsControl_of_isKeyword hkeyword hword, by rw [hlead, htext]⟩

theorem control_of_start (ht : t ∈ (of s).preorder) (hitem : t.kind.isItem = true) (hk : k ∈ Focus.all s.tokens)
    (hindex : k.index = t.start) (hcontrol : k.token.startsControl = true) : t.isControl (of s).foci = true := by
  have hkind := (Tree.led_ofFoci s.tokens t ht hitem).control k hk hindex hcontrol
  have hfirst := (firstCode_statement ht hkind).2 ⟨hk, hindex⟩
  simp only [Token.startsControl, Bool.and_eq_true] at hcontrol
  have hlead : t.leadKeyword (of s).foci = some k.token.text :=
    (leadKeyword_eq hfirst).2 (by simp [Token.isKeyword, eq_of_beq hcontrol.1])
  have hkind : (t.kind == .statement) = true := beq_iff_eq.2 hkind
  rw [Tree.isControl, hkind, hlead, Option.any_some, hcontrol.2]
  rfl

/-- A token of a control statement stands before its block, or behind it if the statement is a `do`. -/
theorem before_block (herrors : (of s).delimiterErrors = []) (ht : t ∈ (of s).preorder)
    (hcontrol : t.isControl (of s).foci = true) {b : Tree} (hblock : t.block = some b) {i : Nat} (howns : t.Owns i) :
    i < b.start ∨ t.leadKeyword (of s).foci = some "do" ∧ b.stop ≤ i := by
  have hb : b ∈ t.children := List.mem_of_find?_eq_some hblock
  have hmem : b.head ∈ t.children.map Tree.head := List.mem_map_of_mem hb
  have hitem := t.isItem_of_isControl hcontrol
  rcases Nat.lt_or_ge i b.start with hlt | hge
  · exact .inl hlt
  · right
    have hbehind : b.stop ≤ i := Nat.not_lt.1 fun hlt ↦ howns.2.2 b.head hmem ⟨hge, hlt⟩
    refine ⟨?_, hbehind⟩
    obtain ⟨f, hf, hindex, hstarts, hlead⟩ := lead_of_control ht hcontrol
    by_contra hdo
    rw [hlead, Option.some.injEq] at hdo
    have hstop : b.stop = t.stop := (Tree.opened_ofFoci herrors t ht hitem).control f hf hindex hstarts hdo b.head hmem
    exact absurd howns.2.1 (Nat.not_lt.2 (Nat.le_trans (Nat.le_of_eq hstop.symm) hbehind))

end Analysis

namespace Rule.Structure

/-- Every control statement of a file in which no body is reported has a block. -/
theorem block_of_silent {r : RuleInput} (hsilent : (bracesRequired r).findings = []) {v : Visit}
    (hv : v ∈ r.file.visits) (hcontrol : v.tree.isControl r.file.foci = true) : ∃ b, v.tree.block = some b := by
  rw [← Option.isSome_iff_exists, ← Option.not_isNone, Bool.not_eq_true']
  by_contra hnone
  have hmem : v ∈ (controlStatements r.file).filter (·.tree.block.isNone) :=
    List.mem_filter.2 ⟨List.mem_filter.2 ⟨hv, hcontrol⟩, by simpa using hnone⟩
  unfold bracesRequired at hsilent
  dsimp only at hsilent
  generalize hcheck : (fun v : Visit ↦ withLead r.file.foci v.tree _) = check at hsilent
  have hfound : ∀ w ∈ (controlStatements r.file).filter (·.tree.block.isNone),
      check w = .found (check w).findings ∧ (check w).findings ≠ [] := by
    intro w hw
    obtain ⟨word, hlead⟩ := controlStatements_lead (List.mem_of_mem_filter hw)
    obtain ⟨f, hfirst⟩ := Tree.firstCode_of_leadKeyword hlead
    simp [← hcheck, withLead, hfirst, Outcome.found]
  rw [Outcome.each_eq_found fun w hw ↦ (hfound w hw).1] at hsilent
  exact (hfound v hmem).2 (List.flatMap_eq_nil_iff.1 hsilent v hmem)

/-- How a control keyword can go without a brace behind its parenthesis, which ends with `c`, and nothing is
reported. -/
inductive Unseen (s : Source) (k c : Focus) : Prop where
  /-- It stands within an item that is no control statement. -/
  | other (t : Tree) (mem : t ∈ (Analysis.of s).preorder) (owns : t.Owns k.index) (isItem : t.kind.isItem = true)
      (notControl : t.isControl (Analysis.of s).foci = false) (within : t.start < k.index)
  /-- It stands in a block that is too deep to be read. -/
  | unread (v : Visit) (mem : v ∈ (Analysis.of s).visits) (owns : v.tree.Owns k.index)
      (kind : v.tree.kind = .braceBlock) (deep : maxDepth ≤ v.above.countP Tree.isBlock)
  /-- It stands between the block of a `do` and the end of the statement. -/
  | behind (t b : Tree) (mem : t ∈ (Analysis.of s).preorder) (owns : t.Owns k.index)
      (lead : t.leadKeyword (Analysis.of s).foci = some "do") (block : t.block = some b) (after : b.stop ≤ k.index)
  /-- It stands before the block of a control statement, and there is more code between its parenthesis and the
  block. -/
  | chained (t b : Tree) (q : Focus) (mem : t ∈ (Analysis.of s).preorder) (owns : t.Owns k.index)
      (isControl : t.isControl (Analysis.of s).foci = true) (block : t.block = some b)
      (head : StatementHead [] (Focus.stretch (Focus.all s.tokens) t.start b.start))
      (next : Focus.NextCode (Focus.all s.tokens) c q) (before : q.index < b.start)

section

variable {s : Source} {k o c : Focus}

/-- Behind a parenthesis before the block of a control statement comes the brace of the block, or more code. -/
theorem before_block_cases (herrors : (Analysis.of s).delimiterErrors = []) {t b : Tree}
    (ht : t ∈ (Analysis.of s).preorder) (hcontrol : t.isControl (Analysis.of s).foci = true)
    (hblock : t.block = some b) (howns : t.Owns k.index) (hlt : k.index < b.start)
    (ho : o ∈ Focus.all s.tokens) (h : Focus.Parenthesized (Focus.all s.tokens) k o c) :
    (∃ q ∈ Focus.all s.tokens, Focus.NextCode (Focus.all s.tokens) c q ∧ q.token.isPunct "\x7b" = true) ∨
      Unseen s k c := by
  have hall := Focus.all_consecutive s.tokens
  have hitem := t.isItem_of_isControl hcontrol
  have hopened := Tree.opened_ofFoci herrors t ht hitem
  have hb : b ∈ t.children := List.mem_of_find?_eq_some hblock
  obtain ⟨brace, hbrace, hindex, hpunct⟩ := hopened.opens b.head (List.mem_map_of_mem hb)
  have hindex : brace.index = b.start := hindex
  have hcode : brace.isCode = true := Braces.isCode_of_not_plain (Braces.not_plain_of_open hpunct)
  have hhead : StatementHead [] (Focus.stretch (Focus.all s.tokens) t.start b.start) := by
    refine hopened.head b.head ?_
    rw [List.head?_map, ← Analysis.block_of_item ht hitem, hblock]
    rfl
  have hopen : o.index < b.start := by
    rcases Nat.lt_trichotomy o.index brace.index with hbefore | hsame | hafter
    · exact hindex ▸ hbefore
    · obtain rfl := hall.eq_of_index ho hbrace hsame
      have hpunct' := Token.isPunct_eq h.opens "\x7b"
      rw [hpunct] at hpunct'
      exact absurd hpunct' (by decide)
    · rw [h.next.between brace hbrace (hindex ▸ hlt) hafter] at hcode
      cases hcode
  have hclose : c.index < b.start :=
    hhead.close_lt hall ho h.opens (Nat.le_trans howns.1 (Nat.le_of_lt h.next.lt)) hopen h.nested
  obtain ⟨q, hq, hnext, hle⟩ := Focus.exists_nextCode hbrace (hindex ▸ hclose) hcode
  rcases Nat.lt_or_eq_of_le hle with hbefore | hsame
  · exact .inr (.chained t b q ht howns hcontrol hblock hhead hnext (hindex ▸ hbefore))
  · obtain rfl := hall.eq_of_index hq hbrace hsame
    exact .inl ⟨q, hq, hnext, hpunct⟩

end

/-- In a file without delimiter errors in which no body is reported, a brace follows the parenthesis behind every
control keyword, but for those that are not seen. -/
theorem bracesRequired_misses (s : Source) (limits : Limits) (cancelled : Nat → Bool)
    (herrors : (Analysis.of s).delimiterErrors = [])
    (hsilent : (bracesRequired ⟨Analysis.of s, limits, cancelled⟩).findings = []) (k o c : Focus)
    (hk : k ∈ Focus.all s.tokens) (ho : o ∈ Focus.all s.tokens) (hword : k.token.startsControl = true)
    (h : Focus.Parenthesized (Focus.all s.tokens) k o c) :
    (∃ q ∈ Focus.all s.tokens, Focus.NextCode (Focus.all s.tokens) c q ∧ q.token.isPunct "\x7b" = true) ∨
      Unseen s k c := by
  have hkind : k.token.kind = .keyword := by
    simp only [Token.startsControl, Bool.and_eq_true, beq_iff_eq] at hword
    exact hword.1
  have hkept : k.token.isKept = true := by
    simp [Token.isKept, Token.isTrivia, hkind, Token.Kind.isTrivia, Token.Kind.isInvalid]
  have hplain : Plain k := by constructor <;> simp [Token.isPunct, hkind]
  obtain ⟨v, hv, howns, hitem | ⟨hblock, hdeep⟩⟩ := Tree.owner_ofFoci hk hkept hplain
  · have ht : v.tree ∈ (Analysis.of s).preorder := List.mem_map_of_mem hv
    cases hcontrol : v.tree.isControl (Analysis.of s).foci with
    | false =>
      refine .inr (.other v.tree ht howns hitem hcontrol (Nat.lt_of_le_of_ne howns.1 fun hstart ↦ ?_))
      rw [Analysis.control_of_start ht hitem hk hstart.symm hword] at hcontrol
      cases hcontrol
    | true =>
      obtain ⟨b, hblock⟩ := block_of_silent hsilent hv hcontrol
      rcases Analysis.before_block herrors ht hcontrol hblock howns with hlt | ⟨hlead, hafter⟩
      · exact before_block_cases herrors ht hcontrol hblock howns hlt ho h
      · exact .inr (.behind v.tree b ht howns hlead hblock hafter)
  · exact .inr (.unread v hv howns hblock hdeep)

/-- A brace behind the parenthesis of an `if`. -/
theorem bracesRequired_misses_if :
    ∃ s : Source, s.bytes = Text.bytesOf "void f()\x7bif(a)\x7bb;\x7d\x7d" ∧ (Analysis.of s).delimiterErrors = [] ∧
      (bracesRequired ⟨Analysis.of s, default, fun _ ↦ false⟩).findings = [] ∧
      ∃ k ∈ Focus.all s.tokens, k.token.isKeyword "if" = true ∧ ∃ o ∈ Focus.all s.tokens, ∃ c ∈ Focus.all s.tokens,
        Focus.Parenthesized (Focus.all s.tokens) k o c ∧
        ((∃ q ∈ Focus.all s.tokens, Focus.NextCode (Focus.all s.tokens) c q ∧ q.token.isPunct "\x7b" = true) ∨
          Unseen s k c) := by
  let s : Source := ⟨"", Text.bytesOf "void f()\x7bif(a)\x7bb;\x7d\x7d"⟩
  have herrors : (Analysis.of s).delimiterErrors = [] := by decide +kernel
  have hsilent : (bracesRequired ⟨Analysis.of s, default, fun _ ↦ false⟩).findings = [] := by decide +kernel
  obtain ⟨k, hk, hif, o, ho, c, hc, h⟩ : ∃ k ∈ Focus.all s.tokens, k.token.isKeyword "if" = true ∧
      ∃ o ∈ Focus.all s.tokens, ∃ c ∈ Focus.all s.tokens, Focus.Parenthesized (Focus.all s.tokens) k o c := by
    decide +kernel
  have hword : k.token.startsControl = true := Token.startsControl_of_isKeyword hif (by decide)
  exact ⟨s, rfl, herrors, hsilent, k, hk, hif, o, ho, c, hc, h,
    bracesRequired_misses s default (fun _ ↦ false) herrors hsilent k o c hk ho hword h⟩

/-- The block of a `for` is taken for that of the `if` before it, whose body has no braces of its own. -/
theorem bracesRequired_misses_nested :
    ∃ s : Source, s.bytes = Text.bytesOf "void f()\x7bif(a)for(;;)\x7b\x7d\x7d" ∧ s.lexErrors = [] ∧
      (Analysis.of s).delimiterErrors = [] ∧
      (bracesRequired ⟨Analysis.of s, default, fun _ ↦ false⟩).findings = [] ∧
      ∃ k ∈ Focus.all s.tokens, k.token.isKeyword "if" = true ∧ ∃ o ∈ Focus.all s.tokens, ∃ c ∈ Focus.all s.tokens,
        Focus.Parenthesized (Focus.all s.tokens) k o c ∧
        ∀ q ∈ Focus.all s.tokens, Focus.NextCode (Focus.all s.tokens) c q → q.token.isPunct "\x7b" = false := by
  refine ⟨⟨"", Text.bytesOf "void f()\x7bif(a)for(;;)\x7b\x7d\x7d"⟩, rfl, ?_, ?_, ?_, ?_⟩
  · decide +kernel
  · decide +kernel
  · decide +kernel
  · decide +kernel

end Rule.Structure

end CodeStyle
