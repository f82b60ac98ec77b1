import CodeStyle.Proofs.Condensing

/-!
How far an item reaches does not depend on blanks and line breaks. What is read from a condensed file is
what is read from the file, condensed.
-/

namespace CodeStyle

/-- The last token read ends the body of a `struct`, `union` or `enum`. -/
def ItemDraft.Progress.endBody (p : Progress) : Progress := { p with aggregateEnd := p.previous.map (·.index) }

/-- A group that is no block leaves its errors with the item. -/
def ItemDraft.Progress.blame (p : Progress) (g : BraceGroup) : Progress :=
  { p with errors := p.errors ++ g.errors }

namespace Condensing

open ItemDraft

variable {c : Condensing} {f first : Focus} {rest region : List Focus} {inFunction : Bool}

section

variable {p : Focus → Bool}

/-- A run that blanks and line breaks are part of ends at the same token. -/
theorem dropWhile_foci_cons {next : Focus} {after : List Focus} (hp : ∀ f, p (c.focus f) = p f)
    (htrivia : ∀ f : Focus, f.isSolid = false → p f = true) (h : region.dropWhile p = next :: after) :
    (c.foci region).dropWhile p = c.focus next :: c.foci after := by
  have hnext : p next = false := by
    have hhead := List.head?_dropWhile_not p region
    rw [h, List.head?_cons] at hhead
    exact hhead
  have hsolid : next.isSolid = true := by
    by_contra hs
    rw [htrivia next (by simpa using hs)] at hnext
    cases hnext
  rw [← foci_dropWhile hp htrivia, h, foci_cons_solid hsolid]

theorem dropWhile_foci_nil (hp : ∀ f, p (c.focus f) = p f)
    (htrivia : ∀ f : Focus, f.isSolid = false → p f = true) (h : region.dropWhile p = []) :
    (c.foci region).dropWhile p = [] := by
  rw [← foci_dropWhile hp htrivia, h, foci_nil]

end

theorem not_isCode_of_trivia (f : Focus) (hf : f.isSolid = false) : (!f.isCode) = true := by
  rw [isCode_of_trivia hf]
  rfl

theorem fromCode_foci_cons {next : Focus} {after : List Focus} (h : fromCode region = next :: after) :
    fromCode (c.foci region) = c.focus next :: c.foci after :=
  dropWhile_foci_cons (fun _ ↦ rfl) not_isCode_of_trivia h

theorem fromCode_foci_nil (h : fromCode region = []) : fromCode (c.foci region) = [] :=
  dropWhile_foci_nil (fun _ ↦ rfl) not_isCode_of_trivia h

theorem classify_foci (t : Token) (rest : List Focus) :
    classify (c.token t) (c.foci rest) = classify t rest := by
  unfold classify
  simp only [token_isKeyword, token_kind, token_opensDeclaration, token_isIdentifier]
  cases hnext : fromCode rest with
  | nil =>
    rw [fromCode_foci_nil hnext]
    rfl
  | cons next after =>
    rw [fromCode_foci_cons hnext]
    simp only [focus_token, token_isIdentifier, token_kind, token_isPunct]
    have hstar (f : Focus) (hf : f.isSolid = false) :
        (!f.isCode || f.token.isPunct "*" || f.token.isKeyword "const") = true := by
      rw [isCode_of_trivia hf]
      rfl
    cases hname : after.dropWhile fun f ↦ !f.isCode || f.token.isPunct "*" || f.token.isKeyword "const" with
    | nil =>
      rw [dropWhile_foci_nil (fun _ ↦ rfl) hstar hname]
      rfl
    | cons name later =>
      rw [dropWhile_foci_cons (fun _ ↦ rfl) hstar hname]
      simp only [focus_token, token_isIdentifier]
      cases hlast : fromCode later with
      | nil =>
        rw [fromCode_foci_nil hlast]
        rfl
      | cons g _ =>
        rw [fromCode_foci_cons hlast]
        rfl

section

variable {whole : List Focus} {n : Nat}

theorem weight_take_succ_solid (h : whole.drop n = f :: rest) (hf : f.isSolid = true) :
    weight (whole.take (n + 1)) = weight (whole.take n) + 1 := by
  rw [weight_take_succ h, weight_cons_solid hf]
  rfl

theorem weight_take_succ_trivia (h : whole.drop n = f :: rest) (hf : f.isSolid = false) :
    weight (whole.take (n + 1)) = weight (whole.take n) := by
  rw [weight_take_succ h, weight_cons_trivia hf]
  rfl

end

theorem caseReach_foci (whole : List Focus) (ternary taken last : Nat) (region : List Focus)
    (h : whole.drop taken = region) :
    caseReach ternary (weight (whole.take taken)) (weight (whole.take last)) (c.foci region) =
      weight (whole.take (caseReach ternary taken last region)) := by
  have hsolid {f : Focus} (hc : ¬(!f.isCode) = true) : f.isSolid = true :=
    Token.isSolid_of_isCode (by simpa [Focus.isCode] using hc)
  fun_induction caseReach ternary taken last region with
  | case1 => rw [foci_nil, caseReach]
  | case2 ternary taken last f rest here hc ih =>
    have hnext := ih (drop_succ_of_drop h)
    by_cases hf : f.isSolid = true
    · rw [foci_cons_solid hf, caseReach.eq_def]
      simp only [focus_isCode, hc, if_true]
      rw [← weight_take_succ_solid h hf]
      exact hnext
    · have hf : f.isSolid = false := by simpa using hf
      rw [foci_cons_trivia hf, ← weight_take_succ_trivia h hf]
      exact hnext
  | case3 ternary taken last f rest here hc hq ih =>
    rw [foci_cons_solid (hsolid hc), caseReach.eq_def]
    simp only [focus_isCode, focus_token, token_isPunct, hc, hq, Bool.false_eq_true, if_false, if_true]
    rw [← weight_take_succ_solid h (hsolid hc)]
    exact ih (drop_succ_of_drop h)
  | case4 taken last f rest here hc hq hcolon =>
    rw [foci_cons_solid (hsolid hc), caseReach.eq_def]
    simp only [focus_isCode, focus_token, token_isPunct, hc, hq, hcolon, Bool.false_eq_true, if_false, if_true]
    exact (weight_take_succ_solid h (hsolid hc)).symm
  | case5 taken last f rest here hc hq hcolon n ih =>
    rw [foci_cons_solid (hsolid hc), caseReach.eq_def]
    simp only [focus_isCode, focus_token, token_isPunct, hc, hq, hcolon, Bool.false_eq_true, if_false, if_true]
    rw [← weight_take_succ_solid h (hsolid hc)]
    exact ih (drop_succ_of_drop h)
  | case6 ternary taken last f rest hc hq hcolon hend =>
    rw [foci_cons_solid (hsolid hc), caseReach.eq_def]
    simp only [focus_isCode, focus_token, token_isPunct, hc, hq, hcolon, hend, Bool.false_eq_true, if_false, if_true]
  | case7 ternary taken last f rest here hc hq hcolon hend ih =>
    rw [foci_cons_solid (hsolid hc), caseReach.eq_def]
    simp only [focus_isCode, focus_token, token_isPunct, hc, hq, hcolon, hend, Bool.false_eq_true, if_false]
    rw [← weight_take_succ_solid h (hsolid hc)]
    exact ih (drop_succ_of_drop h)

theorem filter_isCode_solids (ts : List Token) :
    (c.solids ts).filter Token.isCode = (ts.filter Token.isCode).map c.token := by
  rw [solids, List.filter_map, List.filter_filter]
  congr 2
  funext t
  by_cases ht : t.isCode = true
  · simp [ht, Token.isSolid_of_isCode ht]
  · simp [ht]

theorem opensAggregate_focus (hf : f ∈ Focus.all c.tokens) (start : Nat) :
    opensAggregate (c.index start) (c.focus f) = opensAggregate start f := by
  have hcode : ((c.focus f).before.take ((c.focus f).index - c.index start)).filter Token.isCode =
      ((f.before.take (f.index - start)).filter Token.isCode).map c.token := by
    rw [focus_index, index, index, rank_sub hf, ← filter_isCode_solids]
    simp only [focus, solids]
    rw [← List.map_take, filter_take]
  unfold opensAggregate
  rw [hcode]
  cases (f.before.take (f.index - start)).filter Token.isCode with
  | nil => rfl
  | cons t earlier =>
    simp only [List.map_cons, List.head?_map, Option.any_map]
    rfl

/-- What a reader has seen of an item with the tokens `rest` after its first. -/
def progress (c : Condensing) (rest : List Focus) (p : Progress) : Progress :=
  { opens := p.opens.map fun o ↦ (o.1, c.span o.2)
    last := weight (rest.take p.last)
    previous := p.previous.map c.focus
    sawCall := p.sawCall
    callName := p.callName.map c.index
    sawAssign := p.sawAssign
    aggregateEnd := p.aggregateEnd.map c.index
    groups := p.groups.map (c.group rest)
    errors := p.errors.map c.error }

def mode (c : Condensing) (m : Mode) : Mode := { m with start := c.index m.start }

section

variable (p : Progress) (m : Mode)

@[simp] theorem progress_sawCall : (c.progress rest p).sawCall = p.sawCall := rfl

@[simp] theorem progress_sawAssign : (c.progress rest p).sawAssign = p.sawAssign := rfl

@[simp] theorem progress_isEmpty : (c.progress rest p).opens.isEmpty = p.opens.isEmpty :=
  List.isEmpty_map ..

@[simp] theorem mode_kind : (c.mode m).kind = m.kind := rfl

@[simp] theorem mode_lead : (c.mode m).lead = m.lead := rfl

@[simp] theorem mode_isControl : (c.mode m).isControl = m.isControl := rfl

@[simp] theorem mode_inFunction : (c.mode m).inFunction = m.inFunction := rfl

theorem progress_finish (kind : NodeKind) (name : Option Nat) (more : Nat) :
    c.draft rest (p.finish kind name more) =
      (c.progress rest p).finish kind (name.map c.index) (weight (rest.take more)) :=
  rfl

theorem draft_plain (kind : NodeKind) (more : Nat) :
    c.draft rest (plain kind more) = plain kind (weight (rest.take more)) :=
  rfl

theorem draft_ite {P : Prop} [Decidable P] {d e d' e' : ItemDraft} (hd : P → c.draft rest d = d')
    (he : ¬P → c.draft rest e = e') : c.draft rest (if P then d else e) = if P then d' else e' := by
  by_cases h : P
  · rw [if_pos h, if_pos h, hd h]
  · rw [if_neg h, if_neg h, he h]

theorem progress_closeAll : c.progress rest p.closeAll = (c.progress rest p).closeAll := by
  simp only [progress, Progress.closeAll, List.map_nil, List.map_append, List.map_map, List.map_reverse]
  rfl

theorem progress_openBracket (f : Focus) :
    c.progress rest (p.openBracket f) = (c.progress rest p).openBracket (c.focus f) :=
  rfl

theorem progress_openParen (f : Focus) :
    c.progress rest (p.openParen f) = (c.progress rest p).openParen (c.focus f) := by
  have hname : ((p.previous.filter (·.token.isIdentifier)).map (·.index)).map c.index =
      ((p.previous.map c.focus).filter (·.token.isIdentifier)).map (·.index) := by
    rw [Option.filter_map, Option.map_map, Option.map_map]
    rfl
  unfold Progress.openParen
  rw [progress_isEmpty, progress_sawCall]
  split
  · simp only [progress, hname, List.map_cons, focus_token]
    rfl
  · rfl

theorem progress_close (found : Char) (f : Focus) :
    c.progress rest (p.close found f) = (c.progress rest p).close found (c.focus f) := by
  unfold Progress.close
  cases ho : p.opens with
  | nil => simp [progress, ho, error, token]
  | cons o outer =>
    simp only [progress, ho, List.map_cons]
    split
    · simp
    · simp [error, token]

theorem progress_addGroup (g : BraceGroup) :
    c.progress rest (p.addGroup g) = (c.progress rest p).addGroup (c.group rest g) := by
  simp [progress, Progress.addGroup]

theorem progress_endBody : c.progress rest p.endBody = (c.progress rest p).endBody := by
  simp only [progress, Progress.endBody, Option.map_map]
  rfl

theorem group_errors (g : BraceGroup) : (c.group rest g).errors = g.errors.map c.error := by
  unfold BraceGroup.errors
  cases h : g.closed with
  | true => simp [group, h]
  | false => simp [group, h, error, token]

theorem progress_blame (g : BraceGroup) :
    c.progress rest (p.blame g) = (c.progress rest p).blame (c.group rest g) := by
  simp only [progress, Progress.blame, List.map_append, group_errors]

end

/-- The `offset`-th token of the item `first :: rest` is the brace `f`, which opens `g` before `after`. -/
structure Opens (first : Focus) (rest : List Focus) (offset : Nat) (f : Focus) (after : List Focus)
    (g : BraceGroup) : Prop where
  head : first.isSolid = true
  here : (first :: rest).drop offset = f :: after
  brace : f.isSolid = true
  group : ∃ inFunction, g = BraceGroup.of f offset inFunction after

theorem weight_take_items {after : List Focus} {offset : Nat} (hfirst : first.isSolid = true)
    (h : (first :: rest).drop offset = f :: after) (hf : f.isSolid = true) :
    weight ((first :: rest).take offset) = weight (rest.take offset) := by
  have hsucc := weight_take_succ_solid h hf
  rw [List.take_succ_cons, weight_cons_solid hfirst] at hsucc
  exact (Nat.succ.inj hsucc).symm

namespace Opens

variable {after : List Focus} {offset : Nat} {g : BraceGroup}

theorem after_eq (h : Opens first rest offset f after g) : rest.drop offset = after :=
  drop_succ_of_drop h.here

theorem content_eq (h : Opens first rest offset f after g) : g.content rest = after.take g.inside := by
  obtain ⟨inFunction, rfl⟩ := h.group
  rw [BraceGroup.content, BraceGroup.of_skip, h.after_eq]

/-- Condensing closes a group where it was closed. -/
theorem of_foci (h : Opens first rest offset f after (BraceGroup.of f offset inFunction after)) :
    BraceGroup.of (c.focus f) (weight ((first :: rest).take offset)) inFunction (c.foci after) =
      c.group rest (BraceGroup.of f offset inFunction after) := by
  rw [Condensing.group, h.content_eq, weight_take_items h.head h.here h.brace, BraceGroup.of, BraceGroup.of,
    closeDistance_foci]
  cases closeDistance 0 after with
  | none => simp [length_foci]
  | some n => simp

theorem cases (h : Opens first rest offset f after g) :
    (∃ inner close later, after = inner ++ close :: later ∧ close.isSolid = true ∧ g.closed = true ∧
      g.inside = inner.length) ∨ (g.closed = false ∧ g.inside = after.length) := by
  obtain ⟨inFunction, rfl⟩ := h.group
  rcases BraceGroup.of_cases f offset inFunction after with ⟨inner, close, later, hr, hclose, -, -, hg⟩ | ⟨-, hg⟩
  · exact .inl ⟨inner, close, later, hr, Token.isSolid_of_isPunct hclose, by rw [hg], by rw [hg]⟩
  · exact .inr ⟨by rw [hg], by rw [hg]⟩

theorem weight_size (h : Opens first rest offset f after g) :
    weight ((f :: after).take g.size) = (c.group rest g).size := by
  simp only [BraceGroup.size, Condensing.group, h.content_eq]
  rcases h.cases with ⟨inner, close, later, hr, hclose, hclosed, hinside⟩ | ⟨hclosed, hinside⟩
  · have htake : (f :: after).take (inner.length + 2) = f :: (inner ++ [close]) := by
      rw [hr, List.take_succ_cons, List.append_cons, List.take_left' (by simp)]
    rw [if_pos hclosed, if_pos hclosed, hinside, htake, weight_cons_solid h.brace, weight_append,
      weight_cons_solid hclose, hr, List.take_left]
    rfl
  · rw [if_neg (by simp [hclosed]), if_neg (by simp [hclosed]), List.take_succ_cons, weight_cons_solid h.brace]

theorem size_eq (g : BraceGroup) : ∃ n, g.size = n + 1 :=
  Nat.exists_eq_add_one.2 (Nat.lt_of_le_of_lt (Nat.zero_le _) g.inside_lt_size)

theorem foci_drop (h : Opens first rest offset f after g) :
    c.foci (after.drop (g.size - 1)) = (c.foci after).drop ((c.group rest g).size - 1) := by
  have hweight := h.weight_size (c := c)
  obtain ⟨n, hn⟩ := size_eq g
  rw [hn, List.take_succ_cons, weight_cons_solid h.brace] at hweight
  rw [hn, Condensing.foci_drop, ← hweight, Nat.add_sub_cancel, Nat.add_sub_cancel]

theorem weight_take (h : Opens first rest offset f after g) :
    weight ((first :: rest).take (offset + g.size)) =
      weight ((first :: rest).take offset) + (c.group rest g).size := by
  rw [List.take_add, weight_append, h.here, h.weight_size]

theorem weight_last (h : Opens first rest offset f after g) :
    weight (rest.take (offset + g.size - 1)) =
      weight ((first :: rest).take offset) + (c.group rest g).size - 1 := by
  have hweight := h.weight_take (c := c)
  obtain ⟨n, hn⟩ := size_eq g
  rw [hn, ← Nat.add_assoc, List.take_succ_cons, weight_cons_solid h.head] at hweight
  rw [hn, ← hweight, ← Nat.add_assoc, Nat.add_sub_cancel, Nat.add_sub_cancel]

/-- The last token of a closed group. -/
theorem closing (h : Opens first rest offset f after g) (hclosed : g.closed = true) :
    ∃ close, close.isSolid = true ∧ after[g.size - 2]? = some close ∧
      (c.foci after)[(c.group rest g).size - 2]? = some (c.focus close) := by
  have hclosed' : (c.group rest g).closed = true := hclosed
  rw [BraceGroup.size, if_pos hclosed, Nat.add_sub_cancel, BraceGroup.size, if_pos hclosed', Nat.add_sub_cancel,
    Condensing.group, h.content_eq]
  rcases h.cases with ⟨inner, close, later, hr, hclose, -, hinside⟩ | ⟨hopen, -⟩
  · have hget : after[g.inside]? = some close := by
      rw [hr, hinside]
      simp
    exact ⟨close, hclose, hget, getElem?_foci hget hclose⟩
  · rw [hclosed] at hopen
    cases hopen

theorem progress_passGroup (h : Opens first rest offset f after g) (hclosed : g.closed = true) (p : Progress) :
    c.progress rest (p.passGroup offset g after) =
      (c.progress rest p).passGroup (weight ((first :: rest).take offset)) (c.group rest g)
        (c.foci after) := by
  obtain ⟨close, -, hclose, hclose'⟩ := h.closing (c := c) hclosed
  unfold Progress.passGroup
  rw [hclose, hclose', ← h.weight_last]
  rfl

theorem next (h : Opens first rest offset f after g) :
    (first :: rest).drop (offset + g.size) = after.drop (g.size - 1) :=
  drop_add_of_drop (Nat.lt_of_le_of_lt (Nat.zero_le _) g.inside_lt_size) h.here

theorem drop_unclosed (h : Opens first rest offset f after g) (hclosed : g.closed = false) :
    after.drop (g.size - 1) = [] := by
  rcases h.cases with ⟨-, -, -, -, -, hopen, -⟩ | ⟨-, hinside⟩
  · rw [hclosed] at hopen
    cases hopen
  · rw [BraceGroup.size, if_neg (by simp [hclosed]), hinside, Nat.add_sub_cancel, List.drop_length]

end Opens

theorem openParen_aggregateEnd (p : Progress) (f : Focus) : (p.openParen f).aggregateEnd = p.aggregateEnd := by
  unfold Progress.openParen
  split <;> rfl

theorem close_aggregateEnd (p : Progress) (found : Char) (f : Focus) :
    (p.close found f).aggregateEnd = p.aggregateEnd := by
  unfold Progress.close
  split
  · rfl
  · split <;> rfl

/-- What a reader remembers to look back at are solid tokens. -/
structure Recalls (tokens : List Token) (p : Progress) : Prop where
  previous : ∀ f ∈ p.previous, f ∈ Focus.all tokens ∧ f.isSolid = true
  aggregateEnd : ∀ i ∈ p.aggregateEnd, ∃ f ∈ Focus.all tokens, f.isSolid = true ∧ f.index = i

namespace Recalls

variable {p : Progress} {offset : Nat}

theorem start (tokens : List Token) : Recalls tokens Progress.start :=
  ⟨by simp [Progress.start], by simp [Progress.start]⟩

theorem pass {q : Progress} (h : Recalls c.tokens p) (hq : q.aggregateEnd = p.aggregateEnd)
    (hf : f ∈ Focus.all c.tokens) (hs : f.isSolid = true) : Recalls c.tokens (q.pass offset f) := by
  refine ⟨?_, ?_⟩
  · intro g hg
    cases hg
    exact ⟨hf, hs⟩
  · intro i hi
    exact h.aggregateEnd i (hq ▸ hi)

theorem passGroup {q : Progress} {after : List Focus} {g : BraceGroup} (h : Recalls c.tokens q)
    (hg : Opens first rest offset f after g) (hclosed : g.closed = true)
    (hafter : ∀ f ∈ after, f ∈ Focus.all c.tokens) : Recalls c.tokens (q.passGroup offset g after) := by
  obtain ⟨close, hsolid, hclose, -⟩ := hg.closing (c := c) hclosed
  refine ⟨?_, h.aggregateEnd⟩
  intro q hq
  rw [Progress.passGroup, hclose] at hq
  cases hq
  exact ⟨hafter close (List.mem_of_getElem? hclose), hsolid⟩

theorem endBody (h : Recalls c.tokens p) : Recalls c.tokens p.endBody := by
  refine ⟨h.previous, ?_⟩
  intro i hi
  obtain ⟨f, hf, rfl⟩ := Option.map_eq_some_iff.1 hi
  exact ⟨f, (h.previous f hf).1, (h.previous f hf).2, rfl⟩

/-- Whether the last token read ends a body is the same question after condensing. -/
theorem endsBody (h : Recalls c.tokens p) (rest : List Focus) :
    ((c.progress rest p).aggregateEnd.isSome &&
        (c.progress rest p).aggregateEnd == (c.progress rest p).previous.map (·.index)) =
      (p.aggregateEnd.isSome && p.aggregateEnd == p.previous.map (·.index)) := by
  simp only [progress]
  cases ha : p.aggregateEnd with
  | none => rfl
  | some i =>
    cases hp : p.previous with
    | none => rfl
    | some g =>
      obtain ⟨f, hf, hs, rfl⟩ := h.aggregateEnd i ha
      obtain ⟨hg, ht⟩ := h.previous g hp
      rw [Bool.eq_iff_iff]
      simpa [index] using rank_eq_iff hf hs hg ht

end Recalls

/-- What is done at a brace. -/
theorem scan_brace (m : Mode) (offset : Nat) (p : Progress) (rest : List Focus)
    (hf : f.token.isPunct "\x7b" = true) {g : BraceGroup}
    (hg : BraceGroup.of f offset m.inFunction rest = g) :
    scan m offset p (f :: rest) =
      if p.sawAssign then
        scan m (offset + g.size) ((p.closeAll.blame g).passGroup offset g rest) (rest.drop (g.size - 1))
      else if m.isControl then
        if m.lead == "do" then
          scan m (offset + g.size) ((p.closeAll.addGroup g).passGroup offset g rest) (rest.drop (g.size - 1))
        else (p.closeAll.addGroup g).finish m.kind none (offset + g.size - 1)
      else if opensAggregate m.start f then
        scan m (offset + g.size)
          ((p.closeAll.addGroup { g with inFunction := false }).passGroup offset g rest).endBody
          (rest.drop (g.size - 1))
      else if p.sawCall && !m.inFunction then
        (p.closeAll.addGroup { g with inFunction := true }).finish .functionDefinition p.callName
          (offset + g.size - 1)
      else (p.closeAll.addGroup g).finish m.kind none (offset + g.size - 1) := by
  have hcode : f.token.isCode = true := by
    by_contra hc
    rw [Token.isPunct_of_not_isCode (by simpa using hc)] at hf
    cases hf
  have hne (text : String) (h : "\x7b" ≠ text) : f.token.isPunct text = false := Token.isPunct_eq_false hf h
  subst hg
  rw [scan]
  simp only [hcode, hf, hne "(" (by decide), hne "[" (by decide), hne ")" (by decide), hne "]" (by decide),
    hne "=" (by decide), hne ";" (by decide), Bool.not_true, Bool.false_and, Bool.false_eq_true, if_false, if_true]
  rfl

/-- Reading on from a place in a file and from the same place after condensing. -/
def Agrees (c : Condensing) (m : Mode) (first : Focus) (rest : List Focus) (offset : Nat) (p : Progress)
    (region : List Focus) : Prop :=
  c.draft rest (scan m offset p region) =
    scan (c.mode m) (weight ((first :: rest).take offset)) (c.progress rest p) (c.foci region)

section

variable {after : List Focus} {offset : Nat} {g : BraceGroup} {m : Mode} {p q : Progress}

/-- Reading on behind a group. An unclosed one leaves nothing to be read, so that it does not matter
that its last token may be a blank. -/
theorem Opens.resume (hg : Opens first rest offset f after g) {q' : Progress}
    (hclosed : g.closed = true → c.progress rest q = q')
    (hopen : c.draft rest (q.closeAll.finish m.kind none q.last) = q'.closeAll.finish m.kind none q'.last)
    (ih : g.closed = true → Agrees c m first rest (offset + g.size) q (after.drop (g.size - 1))) :
    c.draft rest (scan m (offset + g.size) q (after.drop (g.size - 1))) =
      scan (c.mode m) (weight ((first :: rest).take offset) + (c.group rest g).size) q'
        ((c.foci after).drop ((c.group rest g).size - 1)) := by
  cases h : g.closed with
  | true => rw [ih h, hg.weight_take, hg.foci_drop, hclosed h]
  | false =>
    rw [← hg.foci_drop, hg.drop_unclosed h, foci_nil, scan, scan]
    exact hopen

theorem Opens.finish (hg : Opens first rest offset f after g) (q : Progress) (kind : NodeKind) :
    c.draft rest (q.closeAll.finish kind none (offset + g.size - 1)) =
      (c.progress rest q).closeAll.finish kind none
        (weight ((first :: rest).take offset) + (c.group rest g).size - 1) := by
  rw [progress_finish, progress_closeAll, hg.weight_last]
  rfl

/-- A brace ends the item or is passed with its group. -/
theorem agrees_brace (hg : Opens first rest offset f after g)
    (heq : BraceGroup.of f offset m.inFunction after = g) (hf : f.token.isPunct "\x7b" = true)
    (hmem : f ∈ Focus.all c.tokens) (hafter : ∀ f ∈ after, f ∈ Focus.all c.tokens) (hp : Recalls c.tokens p)
    (ih : ∀ q, Recalls c.tokens q → Agrees c m first rest (offset + g.size) q (after.drop (g.size - 1))) :
    Agrees c m first rest offset p (f :: after) := by
  have hpass (q : Progress) (hq : q.aggregateEnd = p.aggregateEnd) (hq' : q.previous = p.previous)
      (hclosed : g.closed = true) : Recalls c.tokens (q.passGroup offset g after) := by
    have hrecalls : Recalls c.tokens q := ⟨hq' ▸ hp.previous, hq ▸ hp.aggregateEnd⟩
    exact hrecalls.passGroup hg hclosed hafter
  rw [Agrees, foci_cons_solid hg.brace, scan_brace m offset p after hf heq,
    scan_brace (f := c.focus f) (c.mode m) _ (c.progress rest p) _ hf (heq ▸ Opens.of_foci (heq ▸ hg))]
  simp only [progress_sawAssign, progress_sawCall, mode_kind, mode_isControl, mode_lead, mode_inFunction,
    ← progress_closeAll]
  have haggregate : opensAggregate (c.mode m).start (c.focus f) = opensAggregate m.start f :=
    opensAggregate_focus hmem m.start
  rw [haggregate]
  split_ifs with hassign hcontrol hdo hbody hcall
  · rw [← progress_blame]
    refine hg.resume ?_ (hg.finish _ m.kind) ?_
    · exact fun hclosed ↦ hg.progress_passGroup hclosed _
    · exact fun hclosed ↦ ih _ (hpass _ rfl rfl hclosed)
  · rw [← progress_addGroup]
    refine hg.resume ?_ (hg.finish _ m.kind) ?_
    · exact fun hclosed ↦ hg.progress_passGroup hclosed _
    · exact fun hclosed ↦ ih _ (hpass _ rfl rfl hclosed)
  · rw [← progress_addGroup, ← hg.weight_last]
    rfl
  · have hgroup : c.progress rest (p.closeAll.addGroup { g with inFunction := false }) =
        (c.progress rest p.closeAll).addGroup (c.group rest { g with inFunction := false }) :=
      progress_addGroup ..
    have hfinish := hg.finish (c := c) (p.closeAll.addGroup { g with inFunction := false }) m.kind
    refine hg.resume ?_ (hfinish.trans (by rw [hgroup]; rfl)) ?_
    · intro hclosed
      rw [progress_endBody, hg.progress_passGroup hclosed, hgroup]
      rfl
    · exact fun hclosed ↦ ih _ (hpass (p.closeAll.addGroup _) rfl rfl hclosed).endBody
  · rw [progress_finish, progress_addGroup, hg.weight_last]
    rfl
  · rw [← progress_addGroup, ← hg.weight_last]
    rfl

/-- A token that is no brace is passed or ends the item. -/
theorem agrees_step (hfirst : first.isSolid = true) (h : (first :: rest).drop offset = f :: after)
    (hf : f.isSolid = true) (hbrace : f.token.isPunct "\x7b" = false) (hmem : f ∈ Focus.all c.tokens)
    (hp : Recalls c.tokens p) (ih : ∀ q, Recalls c.tokens q → Agrees c m first rest (offset + 1) q after) :
    Agrees c m first rest offset p (f :: after) := by
  have hstep := weight_take_succ_solid h hf
  have advance (q : Progress) (hq : q.aggregateEnd = p.aggregateEnd) :
      c.draft rest (scan m (offset + 1) (q.pass offset f) after) =
        scan (c.mode m) (weight ((first :: rest).take offset) + 1)
          ((c.progress rest q).pass (weight ((first :: rest).take offset)) (c.focus f)) (c.foci after) := by
    rw [ih _ (hp.pass hq hmem hf), hstep, weight_take_items hfirst h hf]
    rfl
  rw [Agrees, foci_cons_solid hf, scan, scan]
  simp only [focus_token, token_isCode, token_kind, token_isPunct, progress_isEmpty, mode_kind, hbrace,
    hp.endsBody, Bool.false_eq_true, if_false, ← progress_closeAll]
  apply draft_ite
  · intro _
    apply draft_ite
    · exact fun _ ↦ rfl
    · exact fun _ ↦ by rw [ih p hp, hstep]
  intro _
  apply draft_ite
  · exact fun _ ↦ by rw [advance _ (openParen_aggregateEnd p f), progress_openParen]
  intro _
  apply draft_ite
  · exact fun _ ↦ by rw [advance (p.openBracket f) rfl, progress_openBracket]
  intro _
  apply draft_ite
  · exact fun _ ↦ by rw [advance _ (close_aggregateEnd p ')' f), progress_close]
  intro _
  apply draft_ite
  · exact fun _ ↦ by rw [advance _ (close_aggregateEnd p ']' f), progress_close]
  intro _
  apply draft_ite
  · exact fun _ ↦ advance { p with sawAssign := true } rfl
  intro _
  apply draft_ite
  · intro _
    rw [progress_finish, weight_take_items hfirst h hf]
    rfl
  intro _
  apply draft_ite
  · exact fun _ ↦ rfl
  · exact fun _ ↦ advance p rfl

/-- Reading on from any place of an item gives the same draft. -/
theorem agrees_scan (hfirst : first.isSolid = true) (hall : ∀ f ∈ first :: rest, f ∈ Focus.all c.tokens)
    (h : (first :: rest).drop offset = region) (hp : Recalls c.tokens p) :
    Agrees c m first rest offset p region := by
  -- What is left to be read gets shorter with a token and with a group.
  induction hn : region.length using Nat.strongRecOn generalizing region offset p with
  | ind n ih =>
    subst hn
    cases region with
    | nil =>
      rw [Agrees, foci_nil, scan, scan, ← progress_closeAll]
      rfl
    | cons f after =>
      have hmem : f ∈ Focus.all c.tokens := hall f (List.mem_of_mem_drop (h ▸ List.mem_cons_self ..))
      have hafter : ∀ g ∈ after, g ∈ Focus.all c.tokens := fun g hg ↦
        hall g (List.mem_of_mem_drop (h ▸ List.mem_cons_of_mem _ hg))
      have hnext (q : Progress) (hq : Recalls c.tokens q) : Agrees c m first rest (offset + 1) q after :=
        ih _ (Nat.lt_succ_self _) (drop_succ_of_drop h) hq rfl
      by_cases hf : f.isSolid = true
      · by_cases hbrace : f.token.isPunct "\x7b" = true
        · have hg : Opens first rest offset f after (BraceGroup.of f offset m.inFunction after) :=
            ⟨hfirst, h, hf, _, rfl⟩
          refine agrees_brace hg rfl hbrace hmem hafter hp fun q hq ↦ ih _ ?_ hg.next hq rfl
          rw [List.length_drop]
          exact Nat.lt_succ_of_le (Nat.sub_le ..)
        · exact agrees_step hfirst h hf (by simpa using hbrace) hmem hp hnext
      · have hf : f.isSolid = false := by simpa using hf
        have hcode : f.token.isCode = false := isCode_of_trivia hf
        have hkind : (f.token.kind == .directive) = false := by
          by_contra hk
          simp only [Bool.not_eq_false, beq_iff_eq] at hk
          simp [Focus.isSolid, Token.isSolid, Token.isTrivia, hk, Token.Kind.isTrivia] at hf
        rw [Agrees, foci_cons_trivia hf, ← weight_take_succ_trivia h hf, scan]
        simp only [hcode, hkind, Bool.not_false, Bool.false_and, Bool.false_eq_true, if_false, if_true]
        exact hnext p hp

theorem weight_take_findIdx? {k : Nat} (h : rest.findIdx? Focus.isCode = some k) :
    weight (rest.take (k + 1)) = weight (rest.take k) + 1 := by
  obtain ⟨hk, hcode, -⟩ := List.findIdx?_eq_some_iff_getElem.1 h
  exact weight_take_succ_solid (List.drop_eq_getElem_cons hk) (Token.isSolid_of_isCode hcode)

theorem draft_statement (hfirst : first.isSolid = true) (hall : ∀ f ∈ first :: rest, f ∈ Focus.all c.tokens)
    (inFunction : Bool) :
    c.draft rest (statement inFunction first rest) = statement inFunction (c.focus first) (c.foci rest) := by
  have hlabel : (inFunction && (c.focus first).token.isIdentifier &&
        ((c.foci rest).find? Focus.isCode).any (·.token.isPunct ":")) =
      (inFunction && first.token.isIdentifier && (rest.find? Focus.isCode).any (·.token.isPunct ":")) := by
    rw [find?_isCode_foci, Option.any_map]
    rfl
  have hlead : (if (c.focus first).token.kind == .keyword then (c.focus first).token.text else "") =
      if first.token.kind == .keyword then first.token.text else "" :=
    rfl
  have hcase : caseReach 0 0 0 (c.foci rest) = weight (rest.take (caseReach 0 0 0 rest)) :=
    caseReach_foci rest 0 0 0 rest (List.drop_zero ..)
  have hscan (m : Mode) : c.draft rest (scan m 0 Progress.start (first :: rest)) =
      scan (c.mode m) 0 Progress.start (c.focus first :: c.foci rest) := by
    rw [agrees_scan hfirst hall (List.drop_zero ..) (.start c.tokens), foci_cons_solid hfirst]
    rfl
  unfold statement
  dsimp only
  rw [hlabel, findIdx?_isCode_foci, hlead, focus_token, classify_foci, hcase]
  generalize (inFunction && first.token.isIdentifier &&
    (rest.find? Focus.isCode).any (·.token.isPunct ":")) = isLabel
  generalize (if first.token.kind == .keyword then first.token.text else "") = lead
  cases isLabel with
  | false =>
    dsimp only
    split
    · rfl
    · exact hscan _
  | true =>
    cases hk : rest.findIdx? Focus.isCode with
    | none =>
      dsimp only [Option.map_none]
      split
      · rfl
      · exact hscan _
    | some k => simp [draft, weight_take_findIdx? hk]

/-- The item that starts with a token which is no comment is the same in every layout. -/
theorem draft_of (hfirst : first.isSolid = true) (hcomment : first.token.isComment = false)
    (hall : ∀ f ∈ first :: rest, f ∈ Focus.all c.tokens) (inFunction : Bool) :
    c.draft rest (of inFunction first rest) = of inFunction (c.focus first) (c.foci rest) := by
  unfold of
  simp only [focus_token, token_isComment, token_kind, token_text, hcomment, Bool.false_eq_true, if_false]
  apply draft_ite
  · exact fun _ ↦ draft_plain _ 0
  · exact fun _ ↦ draft_statement hfirst hall inFunction

end

end Condensing

end CodeStyle
