import CodeStyle.Proofs.ItemBraces

/-!
Nesting of all three kinds of delimiters. A statement that is read without errors is nested wherever its
brace groups are: parentheses and brackets are paired outside of them, and whether the inside of a group
is looked at is not for the statement to say.
-/

namespace CodeStyle

open Braces (Plain)

/-- What closes the delimiter that a token opens. -/
def Token.opens? (t : Token) : Option Char :=
  if t.isPunct "(" then some ')'
  else if t.isPunct "[" then some ']'
  else if t.isPunct "\x7b" then some '\x7d'
  else none

/-- The closing delimiter that a token is. -/
def Token.closes? (t : Token) : Option Char :=
  if t.isPunct ")" then some ')'
  else if t.isPunct "]" then some ']'
  else if t.isPunct "\x7d" then some '\x7d'
  else none

/-- What is left to be closed after one more token, innermost first. -/
def nestStep (stack : List Char) (f : Focus) : Option (List Char) :=
  match f.token.opens?, f.token.closes? with
  | some c, _ => some (c :: stack)
  | none, some c => if stack.head? = some c then some stack.tail else none
  | none, none => some stack

def nest (stack : List Char) (region : List Focus) : Option (List Char) := region.foldlM nestStep stack

/-- Every delimiter of the region is closed in it by one of its kind, and none crosses another. -/
def Nested (region : List Focus) : Prop := nest [] region = some []

instance (region : List Focus) : Decidable (Nested region) :=
  inferInstanceAs (Decidable (nest [] region = some []))

section

variable {f : Focus} {stack stack' : List Char} {front back region : List Focus} {c : Char}

theorem nest_append (stack : List Char) (front back : List Focus) :
    nest stack (front ++ back) = (nest stack front).bind (nest · back) :=
  List.foldlM_append

theorem nest_cons (stack : List Char) (f : Focus) (region : List Focus) :
    nest stack (f :: region) = (nestStep stack f).bind (nest · region) :=
  List.foldlM_cons

theorem nest_singleton (stack : List Char) (f : Focus) : nest stack [f] = nestStep stack f := by
  rw [nest_cons]
  exact Option.bind_fun_some _

theorem nestStep_opens (h : f.token.opens? = some c) : nestStep stack f = some (c :: stack) := by
  simp only [nestStep, h]

theorem nestStep_closes (ho : f.token.opens? = none) (hc : f.token.closes? = some c) :
    nestStep (c :: stack) f = some stack := by
  simp [nestStep, ho, hc]

theorem nestStep_append (h : nestStep stack f = some stack') (outer : List Char) :
    nestStep (stack ++ outer) f = some (stack' ++ outer) := by
  unfold nestStep at h ⊢
  split at h
  · cases h
    rfl
  · split at h
    · rename_i hhead
      obtain ⟨inner, rfl⟩ := List.head?_eq_some_iff.1 hhead
      cases h
      simp
    · cases h
  · cases h
    rfl

theorem nest_append_stack (h : nest stack region = some stack') (outer : List Char) :
    nest (stack ++ outer) region = some (stack' ++ outer) := by
  induction region generalizing stack with
  | nil =>
    cases h
    rfl
  | cons f region ih =>
    rw [nest_cons] at h ⊢
    obtain ⟨next, hstep, hrest⟩ := Option.bind_eq_some_iff.1 h
    rw [nestStep_append hstep, Option.bind_some]
    exact ih hrest

theorem nest_of_nested (h : Nested region) (stack : List Char) : nest stack region = some stack :=
  nest_append_stack h stack

/-- No delimiter. -/
def Focus.Bare (f : Focus) : Prop := f.token.opens? = none ∧ f.token.closes? = none

theorem nestStep_bare (h : f.Bare) : nestStep stack f = some stack := by
  simp only [nestStep, h.1, h.2]

theorem nested_of_bare (h : ∀ f ∈ region, f.Bare) : Nested region := by
  induction region with
  | nil => rfl
  | cons f region ih =>
    rw [Nested, nest_cons, nestStep_bare (h f (by simp)), Option.bind_some]
    exact ih fun q hq ↦ h q (by simp [hq])

theorem nest_nested_append (h : Nested front) (stack : List Char) (back : List Focus) :
    nest stack (front ++ back) = nest stack back := by
  rw [nest_append, nest_of_nested h, Option.bind_some]

theorem nestStep_closed (ho : f.token.opens? = none) (hc : f.token.closes? = some c)
    (h : nestStep stack f = some stack') : stack = c :: stack' := by
  simp only [nestStep, ho, hc] at h
  split at h
  · rename_i hhead
    obtain ⟨inner, rfl⟩ := List.head?_eq_some_iff.1 hhead
    cases h
    rfl
  · cases h

/-- What is open is closed at some token, up to which everything else that is opened is closed. -/
theorem nest_split {inner outer : List Char} (h : nest (inner ++ c :: outer) region = some []) :
    ∃ front close back, region = front ++ close :: back ∧ nest inner front = some [] ∧
      close.token.opens? = none ∧ close.token.closes? = some c ∧ nest outer back = some [] := by
  induction region generalizing inner with
  | nil => simp [nest] at h
  | cons f region ih =>
    rw [nest_cons] at h
    obtain ⟨next, hstep, hrest⟩ := Option.bind_eq_some_iff.1 h
    -- Unless `f` closes what is asked for, it does the same above it as by itself.
    have further {inner' : List Char} (hnext : next = inner' ++ c :: outer) (hf : nestStep inner f = some inner') :
        ∃ front close back, f :: region = front ++ close :: back ∧ nest inner front = some [] ∧
          close.token.opens? = none ∧ close.token.closes? = some c ∧ nest outer back = some [] := by
      obtain ⟨front, close, back, rfl, hfront, hclose⟩ := ih (hnext ▸ hrest)
      refine ⟨f :: front, close, back, rfl, ?_, hclose⟩
      rw [nest_cons, hf, Option.bind_some, hfront]
    cases ho : f.token.opens? with
    | some d =>
      rw [nestStep_opens ho] at hstep
      cases hstep
      exact further rfl (nestStep_opens ho)
    | none =>
      cases hc : f.token.closes? with
      | none =>
        rw [nestStep_bare ⟨ho, hc⟩] at hstep
        cases hstep
        exact further rfl (nestStep_bare ⟨ho, hc⟩)
      | some d =>
        have hstack := nestStep_closed ho hc hstep
        cases inner with
        | nil =>
          obtain ⟨rfl, rfl⟩ := List.cons.inj hstack
          exact ⟨[], f, region, rfl, rfl, ho, hc, hrest⟩
        | cons e inner =>
          obtain ⟨rfl, rfl⟩ := List.cons.inj hstack
          exact further rfl (nestStep_closes ho hc)

theorem Nested.group {opening close : Focus} (ho : opening.token.opens? = some c)
    (hn : close.token.opens? = none) (hc : close.token.closes? = some c) (h : Nested region) :
    Nested (opening :: (region ++ [close])) := by
  rw [Nested, nest_cons, nestStep_opens ho, Option.bind_some, nest_append, nest_of_nested h, Option.bind_some,
    nest_singleton, nestStep_closes hn hc]

end

namespace Token

variable {t : Token} {text : String}

theorem isPunct_eq (h : t.isPunct text = true) (other : String) : t.isPunct other = decide (text = other) := by
  by_cases he : text = other
  · rw [← he, h]
    simp
  · rw [isPunct_eq_false h he]
    simp [he]

theorem opens?_of_isPunct (h : t.isPunct text = true) : t.opens? =
    if text = "(" then some ')' else if text = "[" then some ']' else if text = "\x7b" then some '\x7d' else none := by
  simp [opens?, isPunct_eq h]

theorem closes?_of_isPunct (h : t.isPunct text = true) : t.closes? =
    if text = ")" then some ')' else if text = "]" then some ']' else if text = "\x7d" then some '\x7d' else none := by
  simp [closes?, isPunct_eq h]

theorem opens?_eq_brace : t.opens? = some '\x7d' ↔ t.isPunct "\x7b" = true := by
  refine ⟨fun h ↦ ?_, fun h ↦ opens?_of_isPunct h⟩
  unfold opens? at h
  split at h
  · simp at h
  · split at h
    · simp at h
    · split at h
      · assumption
      · cases h

theorem closes?_eq_brace : t.closes? = some '\x7d' ↔ t.isPunct "\x7d" = true := by
  refine ⟨fun h ↦ ?_, fun h ↦ closes?_of_isPunct h⟩
  unfold closes? at h
  split at h
  · simp at h
  · split at h
    · simp at h
    · split at h
      · assumption
      · cases h

end Token

namespace Focus.Bare

variable {f : Focus}

theorem of_not_isCode (h : f.isCode = false) : f.Bare := by
  have hpunct := Token.isPunct_of_not_isCode h
  exact ⟨by simp [Token.opens?, hpunct], by simp [Token.closes?, hpunct]⟩

theorem of_isPunct {text : String} (h : f.token.isPunct text = true)
    (hne : text ∉ ["(", "[", "\x7b", ")", "]", "\x7d"]) : f.Bare := by
  simp only [List.mem_cons, List.not_mem_nil, or_false, not_or] at hne
  refine ⟨?_, ?_⟩
  · simp [Token.opens?_of_isPunct h, hne]
  · simp [Token.closes?_of_isPunct h, hne]

theorem of_isPunct_eq_false (h : ∀ text ∈ ["(", "[", "\x7b", ")", "]", "\x7d"], f.token.isPunct text = false) :
    f.Bare := by
  simp only [List.forall_mem_cons] at h
  exact ⟨by simp [Token.opens?, h], by simp [Token.closes?, h]⟩

theorem plain (h : f.Bare) : Plain f := by
  refine ⟨Bool.eq_false_iff.2 fun hp ↦ ?_, Bool.eq_false_iff.2 fun hp ↦ ?_⟩
  · exact absurd (h.1.symm.trans (Token.opens?_of_isPunct hp)) (by decide)
  · exact absurd (h.2.symm.trans (Token.closes?_of_isPunct hp)) (by decide)

end Focus.Bare

theorem BraceGroup.nested {f : Focus} {offset : Nat} {inFunction : Bool} {rest : List Focus} {g : BraceGroup}
    (hg : g = BraceGroup.of f offset inFunction rest) (hf : f.token.isPunct "\x7b" = true)
    (hclosed : g.closed = true) (h : Nested (rest.take g.inside)) : Nested ((f :: rest).take g.size) := by
  rcases BraceGroup.of_cases f offset inFunction rest with
    ⟨inner, close, later, rfl, hclose, -, -, hgroup⟩ | ⟨-, hgroup⟩
  · rw [hgroup] at hg
    subst hg
    have hpart : (f :: (inner ++ close :: later)).take (inner.length + 2) = f :: (inner ++ [close]) := by
      simp [List.take_append, List.take_of_length_le]
    rw [List.take_left] at h
    simp only [size, if_true, hpart]
    exact h.group (Token.opens?_of_isPunct hf) (Token.opens?_of_isPunct hclose) (Token.closes?_of_isPunct hclose)
  · rw [hg, hgroup] at hclosed
    cases hclosed

theorem Token.isTrivia_of_isComment {t : Token} (h : t.isComment = true) : t.isTrivia = false := by
  cases hk : t.kind <;> simp_all [isComment, isTrivia, Kind.isComment, Kind.isTrivia]

theorem Token.isCode_of_read {t : Token} (hskipped : (t.isTrivia || t.kind.isInvalid) = false)
    (hcomment : t.isComment = false) (hdirective : t.kind ≠ .directive) : t.isCode = true := by
  unfold isTrivia isComment at *
  rw [isCode]
  cases hk : t.kind <;> simp_all [Kind.isTrivia, Kind.isInvalid, Kind.isComment, Kind.isCode]

/-- The keyword of a label of a case. -/
def Token.startsCase (t : Token) : Bool := t.isKeyword "case" || t.isKeyword "default"

namespace ItemDraft

open BraceGroup (Fit)

/-- Nothing is wrong with an item itself. -/
def Clean (d : ItemDraft) : Prop := d.errors = [] ∧ ∀ g ∈ d.groups, g.closed = true

def Progress.Clean (p : Progress) : Prop := p.errors = [] ∧ ∀ g ∈ p.groups, g.closed = true

/-- What holds of delimiters while a statement is read that has passed the groups `gs`. -/
structure Progress.Checked (start : Nat) (whole : List Focus) (offset : Nat) (gs : List BraceGroup)
    (p : Progress) : Prop where
  layout : Fit start 0 (min offset (p.last + 1)) gs
  fits : ∀ g ∈ gs, g.Fits whole.tail (Braces.of (whole.take offset))
  closed : p.Clean → ∀ g ∈ gs, g.closed = true
  nested : p.Clean → (∀ g ∈ gs, Nested (g.content whole.tail)) →
    nest [] (whole.take offset) = some (p.opens.map Prod.fst)
  last : p.last + 1 ≤ offset ∧ nest [] (whole.take (p.last + 1)) = nest [] (whole.take offset) ∨
    offset = 0 ∧ p.last = 0

namespace Progress.Checked

variable {whole rest : List Focus} {start offset : Nat} {gs : List BraceGroup} {f : Focus} {p q : Progress}

theorem first (start : Nat) (whole : List Focus) : Progress.start.Checked start whole 0 [] :=
  ⟨.nil (Nat.zero_le _), by simp, by simp, fun _ _ ↦ rfl, .inr ⟨rfl, rfl⟩⟩

theorem advance (h : p.Checked start whole offset gs) (hr : whole.drop offset = f :: rest) (hf : Plain f)
    (hgroups : q.groups = p.groups) (herrors : q.errors = [] → p.errors = [])
    (hopens : q.errors = [] → nestStep (p.opens.map Prod.fst) f = some (q.opens.map Prod.fst))
    (hlast : q.last = offset ∨ q.last = p.last ∧ f.Bare) : q.Checked start whole (offset + 1) gs := by
  have hclean : q.Clean → p.Clean := fun hq ↦ ⟨herrors hq.1, hgroups ▸ hq.2⟩
  have hnext (stack : List Char) : nest stack (whole.take (offset + 1)) =
      (nest stack (whole.take offset)).bind (nestStep · f) := by
    simp only [take_succ_of_drop hr, nest_append, nest_singleton]
  constructor
  case layout => exact h.layout.mono (by omega)
  case fits =>
    rw [of_take_succ hr hf]
    exact h.fits
  case closed => exact fun hq ↦ h.closed (hclean hq)
  case nested =>
    intro hq hgs
    rw [hnext, h.nested (hclean hq) hgs, Option.bind_some]
    exact hopens hq.1
  case last =>
    left
    rcases hlast with rfl | ⟨hsame, hbare⟩
    · exact ⟨Nat.le_refl _, rfl⟩
    · rcases h.last with ⟨hle, hlast⟩ | ⟨rfl, hzero⟩
      · refine ⟨by omega, ?_⟩
        rw [hnext, hsame, hlast]
        simp only [nestStep_bare hbare]
        exact (Option.bind_fun_some _).symm
      · rw [hsame, hzero]
        exact ⟨Nat.le_refl _, rfl⟩

theorem skip (h : p.Checked start whole offset gs) (hr : whole.drop offset = f :: rest) (hf : f.Bare) :
    p.Checked start whole (offset + 1) gs :=
  h.advance hr hf.plain rfl id (fun _ ↦ nestStep_bare hf) (.inr ⟨rfl, hf⟩)

theorem pass (h : p.Checked start whole offset gs) (hr : whole.drop offset = f :: rest) (hf : f.Bare) :
    (p.pass offset f).Checked start whole (offset + 1) gs :=
  h.advance hr hf.plain rfl id (fun _ ↦ nestStep_bare hf) (.inl rfl)

theorem openParen (h : p.Checked start whole offset gs) (hr : whole.drop offset = f :: rest)
    (hf : f.token.isPunct "(" = true) : ((p.openParen f).pass offset f).Checked start whole (offset + 1) gs := by
  have hopens : f.token.opens? = some ')' := Token.opens?_of_isPunct hf
  have hplain : Plain f := .of_isPunct hf (by decide) (by decide)
  unfold Progress.openParen
  dsimp only
  split <;> exact h.advance hr hplain rfl id (fun _ ↦ nestStep_opens hopens) (.inl rfl)

theorem openBracket (h : p.Checked start whole offset gs) (hr : whole.drop offset = f :: rest)
    (hf : f.token.isPunct "[" = true) : ((p.openBracket f).pass offset f).Checked start whole (offset + 1) gs := by
  have hopens : f.token.opens? = some ']' := Token.opens?_of_isPunct hf
  exact h.advance hr (.of_isPunct hf (by decide) (by decide)) rfl id (fun _ ↦ nestStep_opens hopens) (.inl rfl)

theorem close {c : Char} (h : p.Checked start whole offset gs) (hr : whole.drop offset = f :: rest)
    (hplain : Plain f) (hopens : f.token.opens? = none) (hcloses : f.token.closes? = some c) :
    ((p.close c f).pass offset f).Checked start whole (offset + 1) gs := by
  unfold Progress.close
  split
  · exact h.advance hr hplain rfl (by simp [Progress.pass]) (by simp [Progress.pass]) (.inl rfl)
  · rename_i expected _ outer ho
    split
    · rename_i hsame
      obtain rfl := eq_of_beq hsame
      refine h.advance hr hplain rfl id (fun _ ↦ ?_) (.inl rfl)
      rw [ho, List.map_cons]
      exact nestStep_closes hopens hcloses
    · exact h.advance hr hplain rfl (by simp [Progress.pass]) (by simp [Progress.pass]) (.inl rfl)

theorem closeAll (h : p.Checked start whole offset gs) : p.closeAll.Checked start whole offset gs := by
  have hclean (hq : p.closeAll.Clean) : p.Clean ∧ p.opens = [] := by
    obtain ⟨herrors, hopens⟩ := List.append_eq_nil_iff.1 hq.1
    exact ⟨⟨herrors, hq.2⟩, by simpa using hopens⟩
  refine { h with closed := fun hq ↦ h.closed (hclean hq).1, nested := fun hq hgs ↦ ?_ }
  obtain ⟨hp, hopens⟩ := hclean hq
  rw [h.nested hp hgs, hopens]
  rfl

section

variable {g : BraceGroup} {inFunction : Bool}

theorem group (h : p.Checked start whole offset gs) (hb : p.Braced whole offset)
    (hc : Focus.Consecutive start whole) (hr : whole.drop offset = f :: rest)
    (hf : f.token.isPunct "\x7b" = true) (hg : g = BraceGroup.of f offset inFunction rest) (inside : Bool)
    (hp : p.opens = []) (hq : q.opens = []) (hlast : q.last + 1 = offset + g.size)
    (hclean : q.Clean → p.Clean ∧ g.closed = true) :
    q.Checked start whole (offset + g.size) (gs ++ [{ g with inFunction := inside }]) := by
  have ho := hb.opens hr
  have hskip : g.skip = offset := by rw [hg, BraceGroup.of_skip]
  have htail : whole.tail.drop offset = rest := by rw [List.drop_tail, drop_succ_of_drop hr]
  obtain ⟨c, hwhole, -, hfits, -⟩ := group_fits hc hr hf hg rfl ho
  constructor
  case layout =>
    refine h.layout.snoc (by dsimp only; omega) ?_ ?_
    · have hahead : Focus.Consecutive (start + offset) (f :: rest) := hr ▸ hc.drop offset
      dsimp only
      rw [hskip, hg, BraceGroup.of_opening, hahead.head]
    · rw [hlast, Nat.min_self, ← hskip]
      rfl
  case fits =>
    rw [hwhole]
    refine List.forall_mem_append.2 ⟨fun x hx ↦ ?_, ?_⟩
    · exact (h.fits x hx).mono ho fun q hq ↦ List.mem_append_left _ hq
    · rw [List.forall_mem_singleton]
      exact { hfits with }
  case closed =>
    intro hcl
    rw [List.forall_mem_append, List.forall_mem_singleton]
    exact ⟨h.closed (hclean hcl).1, (hclean hcl).2⟩
  case nested =>
    intro hcl hgs
    rw [List.forall_mem_append, List.forall_mem_singleton] at hgs
    have hinside : Nested (rest.take g.inside) := by
      have hcontent := hgs.2
      rwa [BraceGroup.content, hskip, htail] at hcontent
    have hpart := BraceGroup.nested hg hf (hclean hcl).2 hinside
    rw [List.take_add, hr, nest_append, h.nested (hclean hcl).1 hgs.1, hp, hq, Option.bind_some]
    exact hpart
  case last => exact .inl ⟨hlast.le, by rw [hlast]⟩

theorem keep (h : p.Checked start whole offset gs) (hb : p.Braced whole offset)
    (hc : Focus.Consecutive start whole) (hr : whole.drop offset = f :: rest)
    (hf : f.token.isPunct "\x7b" = true) (hg : g = BraceGroup.of f offset inFunction rest) (inside : Bool) :
    ((p.closeAll.addGroup { g with inFunction := inside }).passGroup offset g rest).Checked start whole
      (offset + g.size) (gs ++ [{ g with inFunction := inside }]) := by
  have hpos := g.inside_lt_size
  refine h.closeAll.group hb.closeAll hc hr hf hg inside rfl rfl (by simp only [Progress.passGroup]; omega)
    fun hcl ↦ ?_
  obtain ⟨hgroups, hlast⟩ := List.forall_mem_append.1 hcl.2
  exact ⟨⟨hcl.1, hgroups⟩, hlast { g with inFunction := inside } (List.mem_singleton_self _)⟩

theorem flat (h : p.Checked start whole offset gs) (hb : p.Braced whole offset)
    (hc : Focus.Consecutive start whole) (hr : whole.drop offset = f :: rest)
    (hf : f.token.isPunct "\x7b" = true) (hg : g = BraceGroup.of f offset inFunction rest) :
    ({ p.closeAll with errors := p.closeAll.errors ++ g.errors }.passGroup offset g rest).Checked start whole
      (offset + g.size) (gs ++ [g]) := by
  have hpos := g.inside_lt_size
  refine h.closeAll.group hb.closeAll hc hr hf hg g.inFunction rfl rfl
    (by simp only [Progress.passGroup]; omega) fun hcl ↦ ?_
  obtain ⟨herrors, hgroup⟩ := List.append_eq_nil_iff.1 hcl.1
  refine ⟨⟨herrors, hcl.2⟩, ?_⟩
  by_contra hopen
  simp [BraceGroup.errors, hopen] at hgroup

end

end Progress.Checked

/-- What holds of the delimiters of an item with the groups `gs`. -/
structure Checked (start : Nat) (whole : List Focus) (gs : List BraceGroup) (d : ItemDraft) : Prop where
  layout : Fit start 0 (d.more + 1) gs
  fits : ∀ g ∈ gs, g.Fits whole.tail (Braces.of (whole.take (d.more + 1)))
  closed : d.Clean → ∀ g ∈ gs, g.closed = true
  nested : d.Clean → (∀ g ∈ gs, Nested (g.content whole.tail)) → Nested (whole.take (d.more + 1))

section

variable {whole rest : List Focus} {start offset : Nat} {gs : List BraceGroup} {f first : Focus} {p : Progress}

theorem Progress.Checked.finish (h : p.Checked start whole offset gs) (hb : p.Braced whole offset)
    (hpos : offset ≠ 0) (hopens : p.opens = []) (kind : NodeKind) (name : Option Nat) :
    (p.finish kind name p.last).Checked start whole gs := by
  constructor
  case layout => exact h.layout.mono (Nat.min_le_right _ _)
  case fits =>
    show ∀ g ∈ gs, g.Fits whole.tail (Braces.of (whole.take (p.last + 1)))
    rw [hb.last]
    exact h.fits
  case closed => exact h.closed
  case nested =>
    intro hclean hgs
    obtain ⟨-, hlast⟩ := h.last.resolve_right fun hzero ↦ hpos hzero.1
    show nest [] (whole.take (p.last + 1)) = some []
    rw [hlast, h.nested hclean hgs, hopens, List.map_nil]

theorem Progress.Checked.finishAt (h : p.Checked start whole offset gs) (hr : whole.drop offset = f :: rest)
    (hf : f.Bare) (hopens : p.opens = []) (kind : NodeKind) (name : Option Nat) :
    (p.finish kind name offset).Checked start whole gs := by
  have hnext := h.pass hr hf
  refine ⟨hnext.layout.mono (Nat.min_le_left _ _), hnext.fits, hnext.closed, fun hclean hgs ↦ ?_⟩
  show nest [] (whole.take (offset + 1)) = some []
  rw [hnext.nested hclean hgs, Progress.pass, hopens, List.map_nil]

/-- A statement that is read without errors is nested if all groups in it are. -/
theorem scan_checked (m : Mode) (p : Progress) (region : List Focus) (gs : List BraceGroup)
    (hc : Focus.Consecutive start whole) (hfirst : whole.head? = some first) (hcode : first.isCode = true)
    (hplain : Plain first) (hr : whole.drop offset = region) (hb : p.Braced whole offset)
    (h : p.Checked start whole offset gs) : ∃ gs, (scan m offset p region).Checked start whole gs := by
  -- Only a token that starts no statement ends one before its first token.
  have begun {f : Focus} {rest : List Focus} {offset : Nat} (hr : whole.drop offset = f :: rest)
      (hf : f.isCode = true → ¬Plain f) : offset ≠ 0 := by
    rintro rfl
    rw [List.drop_zero] at hr
    rw [hr, List.head?_cons] at hfirst
    cases hfirst
    exact hf hcode hplain
  have behind {offset : Nat} (g : BraceGroup) : offset + g.size ≠ 0 := by
    have := g.inside_lt_size
    omega
  fun_induction scan m offset p region generalizing gs with
  | case1 offset p =>
    have hpos : offset ≠ 0 := by
      rintro rfl
      rw [List.drop_zero] at hr
      rw [hr] at hfirst
      cases hfirst
    exact ⟨gs, h.closeAll.finish hb.closeAll hpos rfl _ _⟩
  | case2 offset p f rest t hnot hend =>
    have hpos := begun hr fun hf ↦ by simp_all [t, Focus.isCode]
    exact ⟨gs, h.finish hb hpos (by simpa using (Bool.and_eq_true_iff.1 hend).2) _ _⟩
  | case3 offset p f rest t hnot _ ih =>
    have hbare : f.Bare := .of_not_isCode (by simpa [Focus.isCode] using hnot)
    exact ih gs (drop_succ_of_drop hr) (hb.skip hr hbare.plain) (h.skip hr hbare)
  | case4 offset p f rest t _ hf ih =>
    have hb' := (hb.openParen f).pass hr (.of_isPunct hf (by decide) (by decide))
    exact ih gs (drop_succ_of_drop hr) hb' (h.openParen hr hf)
  | case5 offset p f rest t _ _ hf ih =>
    have hb' := (hb.openBracket f).pass hr (.of_isPunct hf (by decide) (by decide))
    exact ih gs (drop_succ_of_drop hr) hb' (h.openBracket hr hf)
  | case6 offset p f rest t _ _ _ hf ih =>
    have hf' : Plain f := .of_isPunct hf (by decide) (by decide)
    exact ih gs (drop_succ_of_drop hr) ((hb.close (by decide) f).pass hr hf')
      (h.close hr hf' (Token.opens?_of_isPunct hf) (Token.closes?_of_isPunct hf))
  | case7 offset p f rest t _ _ _ _ hf ih =>
    have hf' : Plain f := .of_isPunct hf (by decide) (by decide)
    exact ih gs (drop_succ_of_drop hr) ((hb.close (by decide) f).pass hr hf')
      (h.close hr hf' (Token.opens?_of_isPunct hf) (Token.closes?_of_isPunct hf))
  | case8 offset p f rest t _ _ _ _ _ hf ih =>
    have hbare : f.Bare := .of_isPunct (Bool.and_eq_true_iff.1 hf).1 (by decide)
    have hp : { p with sawAssign := true }.Checked start whole offset gs := { h with }
    have hb' : { p with sawAssign := true }.Braced whole offset := { hb with }
    exact ih gs (drop_succ_of_drop hr) (hb'.pass hr hbare.plain) (hp.pass hr hbare)
  | case9 offset p f rest t _ _ _ _ _ _ hf =>
    obtain ⟨hsemi, hopens⟩ := Bool.and_eq_true_iff.1 hf
    exact ⟨gs, h.finishAt hr (.of_isPunct hsemi (by decide)) (by simpa using hopens) _ _⟩
  | case10 offset p f rest t _ _ _ _ _ _ _ hf q g _ ih =>
    exact ih _ (drop_group g hr) (hb.flat hc hr hf rfl) (h.flat hb hc hr hf rfl)
  | case11 offset p f rest t _ _ _ _ _ _ _ hf q g _ _ p' _ ih =>
    exact ih _ (drop_group g hr) (hb.keep hc hr hf rfl g.inFunction) (h.keep hb hc hr hf rfl g.inFunction)
  | case12 offset p f rest t _ _ _ _ _ _ _ hf q g _ _ p' _ =>
    exact ⟨_, (h.keep hb hc hr hf rfl g.inFunction).finish (hb.keep hc hr hf rfl _) (behind g) rfl _ _⟩
  | case13 offset p f rest t _ _ _ _ _ _ _ hf q g _ _ _ p' ih =>
    exact ih _ (drop_group g hr) { hb.keep hc hr hf rfl false with } { h.keep hb hc hr hf rfl false with }
  | case14 offset p f rest t _ _ _ _ _ _ _ hf q g _ _ _ _ p' =>
    exact ⟨_, (h.keep hb hc hr hf rfl true).finish (hb.keep hc hr hf rfl _) (behind g) rfl _ _⟩
  | case15 offset p f rest t _ _ _ _ _ _ _ hf q g _ _ _ _ p' =>
    exact ⟨_, (h.keep hb hc hr hf rfl g.inFunction).finish (hb.keep hc hr hf rfl _) (behind g) rfl _ _⟩
  | case16 offset p f rest t _ _ _ _ _ _ _ _ hf =>
    have hpos := begun hr fun _ hp ↦ by simp_all [Plain, t]
    exact ⟨gs, h.closeAll.finish hb.closeAll hpos rfl _ _⟩
  | case17 offset p f rest t _ h₁ h₂ h₃ h₄ _ _ h₅ h₆ ih =>
    have hbare : f.Bare := .of_isPunct_eq_false (by simp_all [t])
    exact ih gs (drop_succ_of_drop hr) (hb.pass hr hbare.plain) (h.pass hr hbare)

theorem of_startsCase (hcase : first.token.startsCase = true) (inFunction : Bool) (rest : List Focus) :
    (of inFunction first rest).kind = .statement := by
  have hkind : first.token.kind = .keyword := by
    simp only [Token.startsCase, Token.isKeyword, Bool.or_eq_true, Bool.and_eq_true, beq_iff_eq] at hcase
    exact hcase.elim And.left And.left
  have hlead : (first.token.text == "case" || first.token.text == "default") = true := by
    simpa [Token.startsCase, Token.isKeyword, hkind] using hcase
  have hstatement : of inFunction first rest = statement inFunction first rest := by
    simp [of, Token.isComment, Token.Kind.isComment, hkind]
  rw [hstatement]
  fun_cases statement inFunction first rest with
  | case1 t colon isLabel k hk hl => simp [isLabel, t, Token.isIdentifier, hkind] at hl
  | case2 => rfl
  | case3 t colon isLabel lead hnot => simp_all [lead, t]

theorem bare_checked {d : ItemDraft} (hfirst : first.Bare)
    (h : ∀ q ∈ rest.take d.more, q.Bare) : d.Checked start (first :: rest) [] := by
  refine ⟨.nil (Nat.zero_le _), by simp, by simp, fun _ _ ↦ ?_⟩
  rw [List.take_succ_cons]
  exact nested_of_bare (List.forall_mem_cons.2 ⟨hfirst, h⟩)

theorem statement_checked (hc : Focus.Consecutive start (first :: rest)) (hcode : first.isCode = true)
    (hplain : Plain first) (hcase : first.token.startsCase = false) (inFunction : Bool) :
    ∃ gs, (statement inFunction first rest).Checked start (first :: rest) gs := by
  fun_cases statement inFunction first rest with
  | case1 t colon isLabel k hk hl =>
    simp only [isLabel, Bool.and_eq_true] at hl
    refine ⟨[], bare_checked ?_ fun q hq ↦ ?_⟩
    · refine .of_isPunct_eq_false fun text _ ↦ ?_
      have hkind : t.kind = .identifier := eq_of_beq hl.1.2
      simp [Token.isPunct, t, hkind]
    · rcases label_tokens hk hl.2 q hq with hnot | hcolon
      · exact .of_not_isCode hnot
      · exact .of_isPunct hcolon (by decide)
  | case2 t colon isLabel lead hlead =>
    refine absurd hcase ?_
    by_cases hkind : (t.kind == .keyword) = true
    · simpa [lead, hkind, Token.startsCase, Token.isKeyword, t, or_iff_not_imp_left] using hlead
    · simp [lead, hkind] at hlead
  | case3 => exact scan_checked _ _ _ [] hc rfl hcode hplain rfl (.first hplain) (.first start _)

/-- So is every item, but for the label of a case. -/
theorem of_checked (hc : Focus.Consecutive start (first :: rest)) (hplain : Plain first)
    (hskipped : (first.token.isTrivia || first.token.kind.isInvalid) = false)
    (hcase : first.token.startsCase = false) (inFunction : Bool) :
    ∃ gs, (of inFunction first rest).Checked start (first :: rest) gs := by
  unfold of
  split
  · rename_i hcomment
    refine ⟨[], bare_checked (.of_not_isCode (Token.Kind.isCode_of_isComment hcomment)) ?_⟩
    dsimp only [plain]
    split
    · have hcode := commentReach_isCode false rest rfl (by simp) (Nat.le_refl 0)
      exact fun q hq ↦ .of_not_isCode (hcode q hq)
    · simp
  · rename_i hcomment
    split
    · rename_i hdirective
      refine ⟨[], bare_checked (.of_not_isCode ?_) (by simp [plain])⟩
      rw [Focus.isCode, Token.isCode, eq_of_beq hdirective, Token.Kind.isCode]
    · rename_i hdirective
      have hcode := Token.isCode_of_read hskipped (by simpa using hcomment) (by simpa using hdirective)
      exact statement_checked hc hcode hplain hcase inFunction

end

end ItemDraft

end CodeStyle
