import CodeStyle.Facts.Declaration
import CodeStyle.Proofs.OwnTokens

/-!
The parameters of a function are tokens of its own. The reader of a statement keeps a stack of open
brackets and the reader of parameters counts parentheses only. While no bracket is wrong the two agree on
where the list of parameters ends, and before its end no brace is passed.
-/

namespace CodeStyle

open Declaration (parenContent)
open Braces (Plain)

namespace Declaration

section

variable {f : Focus} {depth : Nat} {rest : List Focus}

theorem parenContent_opens (hf : f.token.isPunct "(" = true) :
    parenContent depth (f :: rest) = f :: parenContent (depth + 1) rest := by
  rw [parenContent.eq_def]
  simp only [hf, if_true]

theorem parenContent_closes (hf : f.token.isPunct ")" = true) :
    parenContent (depth + 1) (f :: rest) = f :: parenContent depth rest := by
  rw [parenContent.eq_def]
  simp only [Token.isPunct_eq_false hf (by decide : ")" ≠ "("), hf, if_true, Bool.false_eq_true, if_false]

theorem parenContent_ends (hf : f.token.isPunct ")" = true) : parenContent 0 (f :: rest) = [] := by
  rw [parenContent.eq_def]
  simp only [Token.isPunct_eq_false hf (by decide : ")" ≠ "("), hf, if_true, Bool.false_eq_true, if_false]

theorem parenContent_other (hopen : f.token.isPunct "(" = false) (hclose : f.token.isPunct ")" = false) :
    parenContent depth (f :: rest) = f :: parenContent depth rest := by
  rw [parenContent.eq_def]
  simp only [hopen, hclose, Bool.false_eq_true, if_false]

/-- Counting parentheses ends the content of the outermost one where the stack gets empty. -/
theorem parenContent_step {inner stack : List Char} (hf : Plain f) (hstep : nestStep (inner ++ [')']) f = some stack) :
    (stack = [] ∧ ∀ more, parenContent (inner.count ')') (f :: more) = []) ∨
      ∃ inner', stack = inner' ++ [')'] ∧
        ∀ more, parenContent (inner.count ')') (f :: more) = f :: parenContent (inner'.count ')') more := by
  by_cases hparen : f.token.isPunct "(" = true
  · rw [nestStep_opens (Token.opens?_of_isPunct hparen)] at hstep
    cases hstep
    exact .inr ⟨')' :: inner, rfl, fun more ↦ by rw [parenContent_opens hparen, List.count_cons_self]⟩
  by_cases hclose : f.token.isPunct ")" = true
  · have hopened := nestStep_closed (Token.opens?_of_isPunct hclose) (Token.closes?_of_isPunct hclose) hstep
    cases inner with
    | nil =>
      obtain ⟨-, rfl⟩ := List.cons.inj hopened
      exact .inl ⟨rfl, fun more ↦ by rw [List.count_nil, parenContent_ends hclose]⟩
    | cons c inner =>
      obtain ⟨rfl, rfl⟩ := List.cons.inj hopened
      exact .inr ⟨inner, rfl, fun more ↦ by rw [List.count_cons_self, parenContent_closes hclose]⟩
  -- other brackets go on the stack, where they are not counted
  have hother {depth : Nat} {more : List Focus} : parenContent depth (f :: more) = f :: parenContent depth more :=
    parenContent_other (by simpa using hparen) (by simpa using hclose)
  by_cases hbracket : f.token.isPunct "[" = true
  · rw [nestStep_opens (Token.opens?_of_isPunct hbracket)] at hstep
    cases hstep
    exact .inr ⟨']' :: inner, rfl, fun more ↦ by rw [hother, List.count_cons_of_ne (by decide)]⟩
  by_cases hend : f.token.isPunct "]" = true
  · have hopened := nestStep_closed (Token.opens?_of_isPunct hend) (Token.closes?_of_isPunct hend) hstep
    cases inner with
    | nil => cases hopened
    | cons c inner =>
      obtain ⟨rfl, rfl⟩ := List.cons.inj hopened
      exact .inr ⟨inner, rfl, fun more ↦ by rw [hother, List.count_cons_of_ne (by decide)]⟩
  · have hbare : f.Bare := .of_isPunct_eq_false (by simp [hf.1, hf.2, hparen, hbracket, hclose, hend])
    rw [nestStep_bare hbare] at hstep
    cases hstep
    exact .inr ⟨inner, rfl, fun more ↦ hother⟩

end

/-- How far the content of a parenthesis is read, when `code` stands behind it and `stack` is open. -/
inductive ParenReading (R : Nat → Prop) (code : List Focus) (stack : List Char) : Prop
  | inside (inner : List Char) (hstack : stack = inner ++ [')'])
    (reach : ∀ more, parenContent 0 (code ++ more) = code ++ parenContent (inner.count ')') more)
    (owns : ∀ f ∈ code, R f.index)
  | behind (content : List Focus) (reach : ∀ more, parenContent 0 (code ++ more) = content)
    (owns : ∀ f ∈ content, R f.index)

namespace ParenReading

variable {R S : Nat → Prop} {code : List Focus} {stack stack' : List Char} {f : Focus}

theorem first (R : Nat → Prop) : ParenReading R [] [')'] :=
  .inside [] rfl (fun _ ↦ rfl) (by simp)

theorem mono (h : ParenReading R code stack) (hRS : ∀ i, R i → S i) : ParenReading S code stack := by
  cases h with
  | inside inner hstack reach owns => exact .inside inner hstack reach fun f hf ↦ hRS _ (owns f hf)
  | behind content reach owns => exact .behind content reach fun f hf ↦ hRS _ (owns f hf)

/-- Outside of all brackets the content has been read, whatever comes. -/
theorem append (h : ParenReading R code []) (more : List Focus) (stack : List Char) :
    ParenReading R (code ++ more) stack := by
  cases h with
  | inside inner hstack => simp at hstack
  | behind content reach owns =>
    refine .behind content (fun later ↦ ?_) owns
    rw [List.append_assoc, reach]

theorem content_owns (h : ParenReading R code []) : ∀ f ∈ parenContent 0 code, R f.index := by
  cases h with
  | inside inner hstack => simp at hstack
  | behind content reach owns =>
    rw [← List.append_nil code, reach]
    exact owns

/-- Reading on by one token that is no brace. -/
theorem step (h : ParenReading R code stack) (hf : Plain f) (hstep : nestStep stack f = some stack')
    (hnew : R f.index) : ParenReading R (code ++ [f]) stack' := by
  cases h with
  | behind content reach owns =>
    refine .behind content (fun later ↦ ?_) owns
    rw [List.append_assoc, reach]
  | inside inner hstack reach owns =>
    subst hstack
    have hreach (more : List Focus) : parenContent 0 (code ++ [f] ++ more) =
        code ++ parenContent (inner.count ')') (f :: more) := by
      rw [List.append_assoc, reach, List.singleton_append]
    rcases parenContent_step hf hstep with ⟨rfl, hends⟩ | ⟨inner', rfl, hgoes⟩
    · exact .behind code (fun more ↦ by rw [hreach, hends, List.append_nil]) owns
    · refine .inside inner' rfl (fun more ↦ by rw [hreach, hgoes, ← List.append_cons]) fun q hq ↦ ?_
      rcases List.mem_append.1 hq with hq | hq
      · exact owns q hq
      · rw [List.mem_singleton.1 hq]
        exact hnew

end ParenReading

end Declaration

namespace ItemDraft

open Declaration (ParenReading)

namespace Progress

/-- The code tokens of a statement behind its token with the index `i`, before its `offset`-th. -/
def passed (start : Nat) (whole : List Focus) (offset i : Nat) : List Focus :=
  ((whole.take offset).drop (i + 1 - start)).filter Focus.isCode

/-- What is known of the first call of a statement that is read without errors. -/
structure Called (start : Nat) (whole : List Focus) (offset : Nat) (p : Progress) : Prop where
  call : ∀ i ∈ p.callName, ∃ paren code, passed start whole offset i = paren :: code ∧
    (p.errors = [] → ParenReading (p.Owns start offset) code (p.opens.map Prod.fst))
  previous : whole.drop offset ≠ [] → ∀ f ∈ p.previous, f.token.isIdentifier = true →
    passed start whole offset f.index = []

section

variable {start offset i n : Nat} {whole rest : List Focus} {f : Focus} {p q : Progress} {P : Focus → Prop}

theorem passed_add (hi : i < start + offset) (hle : offset ≤ whole.length) (n : Nat) :
    passed start whole (offset + n) i =
      passed start whole offset i ++ ((whole.drop offset).take n).filter Focus.isCode := by
  have hlength : i + 1 - start ≤ (whole.take offset).length := by
    rw [List.length_take]
    omega
  rw [passed, List.take_add, List.drop_append_of_le_length hlength, List.filter_append]
  rfl

theorem passed_succ (hr : whole.drop offset = f :: rest) (hi : i < start + offset) :
    passed start whole (offset + 1) i = passed start whole offset i ++ [f].filter Focus.isCode := by
  have hle := length_of_drop hr
  rw [passed_add hi (by omega), hr]
  rfl

namespace Called

theorem first (start : Nat) (whole : List Focus) : Progress.start.Called start whole 0 :=
  ⟨by simp [Progress.start], by simp [Progress.start]⟩

theorem skip (h : p.Called start whole offset) (ht : p.Tells P start offset (f :: rest))
    (hr : whole.drop offset = f :: rest) (hf : f.isCode = false) : p.Called start whole (offset + 1) := by
  have hsame {i : Nat} (hi : i < start + offset) : passed start whole (offset + 1) i = passed start whole offset i := by
    rw [passed_succ hr hi, List.filter_singleton, hf]
    exact List.append_nil _
  constructor
  · intro i hi
    obtain ⟨paren, code, hcode, hreading⟩ := h.call i hi
    refine ⟨paren, code, (hsame (ht.callName i hi).2.1).trans hcode, fun herrors ↦ (hreading herrors).mono ?_⟩
    exact fun j hj ↦ ⟨hj.1, Nat.lt_succ_of_lt hj.2.1, hj.2.2⟩
  · intro _ g hg hid
    have hne : whole.drop offset ≠ [] := by simp [hr]
    rw [hsame (ht.previous (by simp) g hg hid).2.1]
    exact h.previous hne g hg hid

/-- Moving on past a code token that is no brace. -/
theorem advance (h : p.Called start whole offset) (ht : p.Tells P start offset (f :: rest))
    (hr : whole.drop offset = f :: rest) (hindex : f.index = start + offset) (hcode : f.isCode = true) (hf : Plain f)
    (hgroups : q.groups = p.groups) (hlast : q.last = offset) (hprevious : q.previous = some f)
    (hname : ∀ i ∈ q.callName, i ∈ p.callName ∨
      i < start + offset ∧ passed start whole offset i = [] ∧ q.opens.map Prod.fst = [')'])
    (hopens : q.errors = [] → p.errors = [] ∧ nestStep (p.opens.map Prod.fst) f = some (q.opens.map Prod.fst)) :
    q.Called start whole (offset + 1) := by
  have hnext {i : Nat} (hi : i < start + offset) :
      passed start whole (offset + 1) i = passed start whole offset i ++ [f] := by
    rw [passed_succ hr hi, List.filter_singleton, hcode]
    rfl
  constructor
  · intro i hi
    -- the call is known already, or `f` is the parenthesis that opens it
    rcases hname i hi with hi | ⟨hlt, hnone, hparen⟩
    · obtain ⟨paren, code, hpassed, hreading⟩ := h.call i hi
      refine ⟨paren, code ++ [f], by rw [hnext (ht.callName i hi).2.1, hpassed, List.cons_append], fun herrors ↦ ?_⟩
      obtain ⟨hp, hstep⟩ := hopens herrors
      refine ((hreading hp).mono fun j hj ↦ ?_).step hf hstep (.next ht.behind hindex hgroups (by omega) Nat.one_pos)
      exact hj.advance hgroups (by omega)
    · refine ⟨f, [], by rw [hnext hlt, hnone, List.nil_append], fun _ ↦ ?_⟩
      rw [hparen]
      exact .first _
  · intro _ g hg _
    rw [hprevious] at hg
    cases hg
    have hle : (whole.take (offset + 1)).length ≤ f.index + 1 - start := by
      rw [List.length_take]
      omega
    rw [passed, List.drop_eq_nil_of_le hle]
    rfl

theorem pass (h : p.Called start whole offset) (ht : p.Tells P start offset (f :: rest))
    (hr : whole.drop offset = f :: rest) (hindex : f.index = start + offset) (hcode : f.isCode = true) (hf : f.Bare) :
    (p.pass offset f).Called start whole (offset + 1) :=
  h.advance ht hr hindex hcode hf.plain rfl rfl rfl (fun _ hi ↦ .inl hi) fun hp ↦ ⟨hp, nestStep_bare hf⟩

theorem openParen (h : p.Called start whole offset) (ht : p.Tells P start offset (f :: rest))
    (hr : whole.drop offset = f :: rest) (hindex : f.index = start + offset) (hcode : f.isCode = true)
    (hf : f.token.isPunct "(" = true) : ((p.openParen f).pass offset f).Called start whole (offset + 1) := by
  have hplain : Plain f := .of_isPunct hf (by decide) (by decide)
  have hstep : nestStep (p.opens.map Prod.fst) f = some (')' :: p.opens.map Prod.fst) :=
    nestStep_opens (Token.opens?_of_isPunct hf)
  unfold Progress.openParen
  dsimp only
  split
  case isTrue hcall =>
    refine h.advance ht hr hindex hcode hplain rfl rfl rfl (fun i hi ↦ ?_) fun hp ↦ ⟨hp, hstep⟩
    obtain ⟨g, hg, rfl⟩ := Option.map_eq_some_iff.1 hi
    obtain ⟨hg, hid⟩ := Option.filter_eq_some_iff.1 hg
    have hnone : p.opens = [] := by simpa using (Bool.and_eq_true_iff.1 hcall).1
    refine .inr ⟨(ht.previous (by simp) g hg hid).2.1, h.previous (by simp [hr]) g hg hid, ?_⟩
    simp [Progress.pass, hnone]
  case isFalse => exact h.advance ht hr hindex hcode hplain rfl rfl rfl (fun _ hi ↦ .inl hi) fun hp ↦ ⟨hp, hstep⟩

theorem openBracket (h : p.Called start whole offset) (ht : p.Tells P start offset (f :: rest))
    (hr : whole.drop offset = f :: rest) (hindex : f.index = start + offset) (hcode : f.isCode = true)
    (hf : f.token.isPunct "[" = true) : ((p.openBracket f).pass offset f).Called start whole (offset + 1) :=
  h.advance ht hr hindex hcode (.of_isPunct hf (by decide) (by decide)) rfl rfl rfl (fun _ hi ↦ .inl hi)
    fun hp ↦ ⟨hp, nestStep_opens (Token.opens?_of_isPunct hf)⟩

theorem close {c : Char} (h : p.Called start whole offset) (ht : p.Tells P start offset (f :: rest))
    (hr : whole.drop offset = f :: rest) (hindex : f.index = start + offset) (hcode : f.isCode = true)
    (hf : Plain f) (hopens : f.token.opens? = none) (hcloses : f.token.closes? = some c) :
    ((p.close c f).pass offset f).Called start whole (offset + 1) := by
  -- after an error nothing is said of the call
  have wrong {e : DelimiterError} {q : Progress} (hq : q.errors = p.errors ++ [e]) (hp : q.errors = []) :
      p.errors = [] ∧ nestStep (p.opens.map Prod.fst) f = some (q.opens.map Prod.fst) := by
    rw [hq] at hp
    simp at hp
  unfold Progress.close
  split
  · exact h.advance ht hr hindex hcode hf rfl rfl rfl (fun _ hi ↦ .inl hi) (wrong rfl)
  · rename_i expected _ outer ho
    split
    · rename_i hsame
      obtain rfl := eq_of_beq hsame
      refine h.advance ht hr hindex hcode hf rfl rfl rfl (fun _ hi ↦ .inl hi) fun hp ↦ ⟨hp, ?_⟩
      rw [ho, List.map_cons]
      exact nestStep_closes hopens hcloses
    · exact h.advance ht hr hindex hcode hf rfl rfl rfl (fun _ hi ↦ .inl hi) (wrong rfl)

theorem closeAll (h : p.Called start whole offset) : p.closeAll.Called start whole offset := by
  refine ⟨fun i hi ↦ ?_, h.previous⟩
  obtain ⟨paren, code, hcode, hreading⟩ := h.call i hi
  refine ⟨paren, code, hcode, fun herrors ↦ ?_⟩
  obtain ⟨hp, hopens⟩ := List.append_eq_nil_iff.1 herrors
  have hnone : p.opens = [] := by simpa using hopens
  have h := hreading hp
  rwa [hnone] at h

/-- Moving on past a brace group. A statement without errors has no open brackets there. -/
theorem group {inFunction : Bool} {g : BraceGroup} (h : p.Called start whole offset)
    (ht : p.Tells P start offset (f :: rest)) (hr : whole.drop offset = f :: rest)
    (hg : BraceGroup.of f offset inFunction rest = g) (hp : p.opens = []) (hname : q.callName = p.callName)
    (hprevious : q.previous = rest[g.size - 2]?.or (some g.opening)) (herrors : q.errors = [] → p.errors = [])
    (howns : ∀ i, p.Owns start offset i → q.Owns start (offset + g.size) i) :
    q.Called start whole (offset + g.size) := by
  have hle := length_of_drop hr
  constructor
  · intro i hi
    rw [hname] at hi
    obtain ⟨paren, code, hcode, hreading⟩ := h.call i hi
    refine ⟨paren, _, by rw [passed_add (ht.callName i hi).2.1 (by omega), hcode, List.cons_append], fun hq ↦ ?_⟩
    have hclosed := (hreading (herrors hq)).mono howns
    rw [hp] at hclosed
    exact hclosed.append _ _
  · intro hlater b hb hid
    rw [hprevious] at hb
    have hnot := Tells.previous_group hg (by rwa [← drop_group g hr]) b hb
    rw [hid] at hnot
    cases hnot

end Called

end

end Progress

/-- The parameters of a function that is read without errors are tokens that it owns. -/
def ListsParameters (start : Nat) (whole : List Focus) (d : ItemDraft) : Prop :=
  d.errors = [] → d.kind = .functionDefinition → ∀ i ∈ d.name, ∀ paren code,
    Progress.passed start whole (d.more + 1) i = paren :: code → ∀ f ∈ parenContent 0 code, d.Owns start f.index

section

variable {P : Focus → Prop} {start total offset : Nat} {whole rest : List Focus} {first f : Focus} {p : Progress}
  {d : ItemDraft} {inFunction : Bool} {g k : BraceGroup}

theorem Progress.Called.flat (h : p.Called start whole offset) (ht : p.Tells P start offset (f :: rest))
    (hr : whole.drop offset = f :: rest) (hg : BraceGroup.of f offset inFunction rest = g) :
    ({ p.closeAll with errors := p.closeAll.errors ++ g.errors }.passGroup offset g rest).Called start whole
      (offset + g.size) := by
  have hpos := g.inside_lt_size
  refine h.closeAll.group ht.closeAll hr hg rfl rfl rfl (fun hq ↦ (List.append_eq_nil_iff.1 hq).1) fun i hi ↦ ?_
  exact hi.advance rfl (by simp only [Progress.passGroup]; omega)

theorem Progress.Called.keep (h : p.Called start whole offset) (ht : p.Tells P start offset (f :: rest))
    (hr : whole.drop offset = f :: rest) (hindex : f.index = start + offset)
    (hg : BraceGroup.of f offset inFunction rest = g) (hopening : k.opening = f) :
    ((p.closeAll.addGroup k).passGroup offset g rest).Called start whole (offset + g.size) :=
  h.closeAll.group ht.closeAll hr hg rfl rfl rfl id fun _ hi ↦ hi.keep hopening hindex rest

theorem listsParameters_of_name (h : d.name = none) : d.ListsParameters start whole := by
  intro _ _ i hi
  rw [h] at hi
  cases hi

theorem Progress.Called.finish (h : p.Called start whole offset) (hopens : p.opens = []) (hlast : p.last + 1 = offset)
    (kind : NodeKind) : (p.finish kind p.callName p.last).ListsParameters start whole := by
  intro herrors _ i hi paren code hpassed f hf
  obtain ⟨paren', code', hpassed', hreading⟩ := h.call i hi
  have hsame : paren' :: code' = paren :: code := by
    rw [← hpassed, ← hpassed', ← hlast]
    rfl
  obtain ⟨-, rfl⟩ := List.cons.inj hsame
  have hbehind := hreading herrors
  rw [hopens] at hbehind
  have howns := hbehind.content_owns f hf
  exact ⟨howns.1, howns.2.2⟩

/-- A function definition ends with its body, and then its parameters have been read. -/
theorem scan_listsParameters (m : Mode) (offset : Nat) (p : Progress) (region : List Focus)
    (ha : Ahead P start total offset region) (hr : whole.drop offset = region) (ht : p.Tells P start offset region)
    (h : p.Called start whole offset) : (scan m offset p region).ListsParameters start whole := by
  have tells {p : Progress} {f : Focus} {rest : List Focus} {offset : Nat} (inFunction : Bool)
      (ha : Ahead P start total offset (f :: rest)) (ht : p.Tells P start offset (f :: rest)) :=
    ht.closeAll.keep (k := { BraceGroup.of f offset m.inFunction rest with inFunction }) ha.consecutive.head rfl
      (BraceGroup.of_opening ..) rfl
  have keep {p : Progress} {f : Focus} {rest : List Focus} {offset : Nat} (inFunction : Bool)
      (ha : Ahead P start total offset (f :: rest)) (hr : whole.drop offset = f :: rest)
      (ht : p.Tells P start offset (f :: rest)) (h : p.Called start whole offset) :=
    h.keep (k := { BraceGroup.of f offset m.inFunction rest with inFunction })
      (g := BraceGroup.of f offset m.inFunction rest) ht hr ha.consecutive.head rfl (BraceGroup.of_opening ..)
  fun_induction scan m offset p region with
  | case1 | case2 | case9 | case12 | case15 | case16 => exact listsParameters_of_name rfl
  | case3 offset p f rest t hcode _ ih =>
    exact ih ha.tail (drop_succ_of_drop hr) ht.skip (h.skip ht hr (by simpa [Focus.isCode] using hcode))
  | case4 offset p f rest t hcode hf ih =>
    exact ih ha.tail (drop_succ_of_drop hr) (ht.openParen ha.head ha.consecutive.head)
      (h.openParen ht hr ha.consecutive.head (by simpa [Focus.isCode] using hcode) hf)
  | case5 offset p f rest t hcode _ hf ih =>
    exact ih ha.tail (drop_succ_of_drop hr) (ht.openBracket ha.head ha.consecutive.head)
      (h.openBracket ht hr ha.consecutive.head (by simpa [Focus.isCode] using hcode) hf)
  | case6 offset p f rest t hcode _ _ hf ih =>
    exact ih ha.tail (drop_succ_of_drop hr) (ht.close ha.head ha.consecutive.head ')')
      (h.close ht hr ha.consecutive.head (by simpa [Focus.isCode] using hcode) (.of_isPunct hf (by decide) (by decide))
        (Token.opens?_of_isPunct hf) (Token.closes?_of_isPunct hf))
  | case7 offset p f rest t hcode _ _ _ hf ih =>
    exact ih ha.tail (drop_succ_of_drop hr) (ht.close ha.head ha.consecutive.head ']')
      (h.close ht hr ha.consecutive.head (by simpa [Focus.isCode] using hcode) (.of_isPunct hf (by decide) (by decide))
        (Token.opens?_of_isPunct hf) (Token.closes?_of_isPunct hf))
  | case8 offset p f rest t hcode _ _ _ _ hf ih =>
    have hbare : f.Bare := .of_isPunct (Bool.and_eq_true_iff.1 hf).1 (by decide)
    have ht' : { p with sawAssign := true }.Tells P start offset (f :: rest) := { ht with }
    have h' : { p with sawAssign := true }.Called start whole offset := { h with }
    exact ih ha.tail (drop_succ_of_drop hr) (ht'.pass ha.head ha.consecutive.head)
      (h'.pass ht' hr ha.consecutive.head (by simpa [Focus.isCode] using hcode) hbare)
  | case10 offset p f rest t _ _ _ _ _ _ _ _ q g _ ih =>
    exact ih (ha.afterGroup _) (drop_group g hr) (ht.closeAll.flat ha.head ha.consecutive.head rfl)
      (h.flat ht hr rfl)
  | case11 offset p f rest t _ _ _ _ _ _ _ _ q g _ _ p' _ ih =>
    exact ih (ha.afterGroup _) (drop_group g hr) (tells g.inFunction ha ht) (keep g.inFunction ha hr ht h)
  | case13 offset p f rest t _ _ _ _ _ _ _ _ q g _ _ _ p' ih =>
    exact ih (ha.afterGroup _) (drop_group g hr) { tells false ha ht with } { keep false ha hr ht h with }
  | case14 offset p f rest t _ _ _ _ _ _ _ _ q g _ _ _ _ p' =>
    have hpos := (BraceGroup.of f offset m.inFunction rest).inside_lt_size
    exact (keep true ha hr ht h).finish rfl (by simp only [Progress.passGroup]; omega) _
  | case17 offset p f rest t hcode h₁ h₂ h₃ h₄ _ _ h₅ h₆ ih =>
    have hbare : f.Bare := .of_isPunct_eq_false (by simp_all [t])
    exact ih ha.tail (drop_succ_of_drop hr) (ht.pass ha.head ha.consecutive.head)
      (h.pass ht hr ha.consecutive.head (by simpa [Focus.isCode] using hcode) hbare)

theorem of_listsParameters (ha : Ahead P start total 0 (first :: rest)) (inFunction : Bool) :
    (of inFunction first rest).ListsParameters start (first :: rest) := by
  unfold of
  split
  · exact listsParameters_of_name rfl
  · split
    · exact listsParameters_of_name rfl
    · fun_cases statement inFunction first rest with
      | case1 =>
        intro _ hkind
        cases hkind
      | case2 => exact listsParameters_of_name rfl
      | case3 => exact scan_listsParameters _ 0 _ _ ha rfl (.first _) (.first _ _)

end

end ItemDraft

theorem Focus.Consecutive.placed {all region : List Focus} {i : Nat} (hall : Consecutive 0 all)
    (h : Consecutive i region) (hmem : ∀ f ∈ region, f ∈ all) : Placed all i region := by
  intro k f hf
  obtain ⟨j, hj⟩ := List.mem_iff_getElem?.1 (hmem f (List.mem_of_getElem? hf))
  have hindex := h k f hf
  have hindex' := hall j f hj
  rwa [show i + k = j by omega]

/-- The content of the parenthesis behind the name of a function belongs to its node. -/
def NodeHead.OwnsParameters (all : List Focus) (h : NodeHead) (inner : List NodeHead) : Prop :=
  h.kind = .functionDefinition → ∀ i ∈ h.name, ∀ paren code,
    ((all.take h.stop).drop (i + 1)).filter Focus.isCode = paren :: code →
      ∀ f ∈ parenContent 0 code, h.Owns inner f.index

theorem Forest.item_ownsParameters {all rest : List Focus} {i : Nat} {f : Focus} (hall : Focus.Consecutive 0 all)
    (hc : Focus.Consecutive i (f :: rest)) (hmem : ∀ q ∈ f :: rest, q ∈ all) (inFunction : Bool) {d : ItemDraft}
    (hd : ItemDraft.of inFunction f rest = d) (herrors : d.errors = []) (content : BraceGroup → Forest) :
    ∀ o ∈ (item f d ((d.groups.map fun g ↦ block g (content g)).foldl append empty)).nodes,
      o.head.OwnsParameters all (o.children.map Outline.head) := by
  intro o ho hkind j hj paren code hcode q hq
  have howns {k : Nat} (hk : d.Owns f.index k) := item_owns ho hk
  cases List.mem_singleton.1 ho
  obtain rfl := hc.head
  have ha : ItemDraft.Ahead (· ∈ all) f.index (rest.length + 1) 0 (f :: rest) := ⟨hc, hmem, Nat.zero_add _⟩
  have hlists := ItemDraft.of_listsParameters ha inFunction
  have hmore := (ItemDraft.of_sound ha inFunction).more_lt
  have hname := (ItemDraft.of_tells ha inFunction).name
  rw [hd] at hlists hmore hname
  have hstart := (hname j hj).1
  have hfrom : f.index + (j + 1 - f.index) = j + 1 := by omega
  have hlength : d.more + 1 - (j + 1 - f.index) = f.index + d.more + 1 - (j + 1) := by omega
  have hpassed : ItemDraft.Progress.passed f.index (f :: rest) (d.more + 1) j = paren :: code := by
    rw [ItemDraft.Progress.passed, (hall.placed hc hmem).take_eq (Nat.succ_le_of_lt hmore), List.drop_take,
      List.drop_drop, hfrom, hlength, ← List.drop_take]
    exact hcode
  exact howns (hlists herrors hkind j hj paren code hpassed q hq)

/-- What holds of every item that is read without errors, holds of those of a file without errors. -/
theorem Tree.items_without_errors {tokens : List Token} {Q : NodeHead → List NodeHead → Prop}
    (herrors : (Outline.ofFoci (Focus.all tokens)).2 = [])
    (hitems : ∀ {i : Nat} {f : Focus} {rest : List Focus}, Focus.Consecutive i (f :: rest) →
      (∀ q ∈ f :: rest, q ∈ Focus.all tokens) → Braces.Plain f → ∀ (inFunction : Bool) {d : ItemDraft},
      ItemDraft.of inFunction f rest = d → d.errors = [] → ∀ (content : BraceGroup → Forest),
      ∀ o ∈ (Forest.item f d ((d.groups.map fun g ↦ .block g (content g)).foldl .append .empty)).nodes,
        Q o.head (o.children.map Outline.head)) :
    ∀ t ∈ (ofOutline (Outline.ofFoci (Focus.all tokens)).1).preorder, t.kind.isItem = true →
      Q t.head (t.children.map head) := by
  have hforest := Outline.errors_of_ofFoci herrors
  have hboth := items_ofFoci (E := fun _ ↦ False) tokens
    (Q := fun h inner ↦ h.Itemized (· ∈ Focus.all tokens) inner ∧ Q h inner) (fun _ _ h ↦ h.1.blocks) ?_
    (by simp [hforest])
  · exact fun t ht hitem ↦ (hboth t ht hitem).2
  · intro i f rest hc hregion hread hplain inFunction d hd hnone content o ho
    have hnone : d.errors = [] := List.eq_nil_iff_forall_not_mem.2 hnone
    exact ⟨Forest.item_itemized hc hregion.mem hread hplain inFunction hd content o ho,
      hitems hc hregion.mem hplain inFunction hd hnone content o ho⟩

/-- Where no delimiter is wrong, all functions of a file own their parameters. -/
theorem Tree.ownsParameters_ofFoci {tokens : List Token} (herrors : (Outline.ofFoci (Focus.all tokens)).2 = []) :
    ∀ t ∈ (ofOutline (Outline.ofFoci (Focus.all tokens)).1).preorder, t.kind.isItem = true →
      t.head.OwnsParameters (Focus.all tokens) (t.children.map head) :=
  items_without_errors herrors fun hc hP _ inFunction _ hd hnone ↦
    Forest.item_ownsParameters (Focus.all_consecutive tokens) hc hP inFunction hd hnone

end CodeStyle
