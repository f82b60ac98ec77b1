import CodeStyle.Proofs.LeadingTokens
import CodeStyle.Proofs.ParameterLists

/-!
What stands before the first block of a statement. A statement without errors gets to its first block past
tokens without braces, with its parentheses closed, and what would have ended it stands inside of them. A
function ends with its last block, and so does a control statement other than `do` with its only one.
-/

namespace CodeStyle

open Braces (Plain)

/-- What ends a statement before its block, or makes an initializer of it, outside of parentheses. -/
def Token.endsHead (t : Token) : Bool := t.isPunct ";" || t.isPunct "=" || t.kind == .directive

theorem Token.endsHead_of_isPunct {t : Token} {text : String} (h : t.isPunct text = true) :
    t.endsHead = (decide (text = ";") || decide (text = "=")) := by
  have hkind : t.kind ≠ .directive := by
    intro hk
    simp [isPunct, hk] at h
  simp [endsHead, isPunct_eq h, hkind]

/-- Tokens before the first block of a statement that leave `stack` to be closed. -/
structure StatementHead (stack : List Char) (front : List Focus) : Prop where
  plain : ∀ q ∈ front, Plain q
  nested : nest [] front = some stack
  inside : ∀ i q, front[i]? = some q → q.token.endsHead = true → ¬Nested (front.take i)

theorem StatementHead.snoc {stack stack' : List Char} {front : List Focus} {f : Focus} (h : StatementHead stack front)
    (hf : Plain f) (hstep : nestStep stack f = some stack') (hends : f.token.endsHead = true → stack ≠ []) :
    StatementHead stack' (front ++ [f]) := by
  refine ⟨?_, ?_, fun i q hq hends' ↦ ?_⟩
  · rw [List.forall_mem_append, List.forall_mem_singleton]
    exact ⟨h.plain, hf⟩
  · rw [nest_append, h.nested, Option.bind_some, nest_singleton, hstep]
  · rcases Nat.lt_or_ge i front.length with hlt | hge
    · rw [List.getElem?_append_left hlt] at hq
      rw [List.take_append_of_le_length (Nat.le_of_lt hlt)]
      exact h.inside i q hq hends'
    · obtain ⟨hlt, -⟩ := List.getElem?_eq_some_iff.1 hq
      rw [List.length_append, List.length_singleton] at hlt
      obtain rfl : i = front.length := by omega
      rw [List.getElem?_concat_length] at hq
      cases hq
      rw [List.take_left, Nested, h.nested, Option.some.injEq]
      exact hends hends'

namespace ItemDraft

/-- What is known of the head of a statement without errors, when its next token is the `offset`-th. -/
structure Progress.Heads (whole : List Focus) (offset : Nat) (p : Progress) : Prop where
  ahead : p.errors = [] → p.groups = [] → p.sawAssign = false →
    StatementHead (p.opens.map Prod.fst) (whole.take offset)
  first : p.errors = [] → ∀ g ∈ p.groups.head?, StatementHead [] (whole.take g.skip)

namespace Progress.Heads

variable {whole rest : List Focus} {offset : Nat} {f : Focus} {p q : Progress}

theorem start (whole : List Focus) : Progress.start.Heads whole 0 :=
  ⟨fun _ _ _ ↦ ⟨by simp, rfl, by simp⟩, by simp [Progress.start]⟩

theorem advance (h : p.Heads whole offset) (hr : whole.drop offset = f :: rest) (hf : Plain f)
    (hgroups : q.groups = p.groups) (herrors : q.errors = [] → p.errors = [])
    (hassign : q.sawAssign = false → p.sawAssign = false ∧ (f.token.endsHead = true → p.opens ≠ []))
    (hopens : q.errors = [] → nestStep (p.opens.map Prod.fst) f = some (q.opens.map Prod.fst)) :
    q.Heads whole (offset + 1) := by
  constructor
  case ahead =>
    intro he hg ha
    obtain ⟨ha, hends⟩ := hassign ha
    rw [take_succ_of_drop hr]
    exact (h.ahead (herrors he) (hgroups ▸ hg) ha).snoc hf (hopens he) fun he ↦ by simpa using hends he
  case first =>
    intro he
    rw [hgroups]
    exact h.first (herrors he)

theorem skip (h : p.Heads whole offset) (hr : whole.drop offset = f :: rest) (hf : f.Bare)
    (hends : f.token.endsHead = true → p.opens ≠ []) : p.Heads whole (offset + 1) :=
  h.advance hr hf.plain rfl id (fun ha ↦ ⟨ha, hends⟩) fun _ ↦ nestStep_bare hf

theorem pass (h : p.Heads whole offset) (hr : whole.drop offset = f :: rest) (hf : f.Bare)
    (hends : f.token.endsHead = true → p.opens ≠ []) : (p.pass offset f).Heads whole (offset + 1) :=
  h.advance hr hf.plain rfl id (fun ha ↦ ⟨ha, hends⟩) fun _ ↦ nestStep_bare hf

theorem openParen (h : p.Heads whole offset) (hr : whole.drop offset = f :: rest)
    (hf : f.token.isPunct "(" = true) : ((p.openParen f).pass offset f).Heads whole (offset + 1) := by
  have hopens : f.token.opens? = some ')' := Token.opens?_of_isPunct hf
  have hplain : Plain f := .of_isPunct hf (by decide) (by decide)
  unfold Progress.openParen
  dsimp only
  split <;> exact h.advance hr hplain rfl id (fun ha ↦ ⟨ha, by simp [Token.endsHead_of_isPunct hf]⟩)
    fun _ ↦ nestStep_opens hopens

theorem openBracket (h : p.Heads whole offset) (hr : whole.drop offset = f :: rest)
    (hf : f.token.isPunct "[" = true) : ((p.openBracket f).pass offset f).Heads whole (offset + 1) := by
  have hopens : f.token.opens? = some ']' := Token.opens?_of_isPunct hf
  exact h.advance hr (.of_isPunct hf (by decide) (by decide)) rfl id
    (fun ha ↦ ⟨ha, by simp [Token.endsHead_of_isPunct hf]⟩) fun _ ↦ nestStep_opens hopens

theorem close {c : Char} {text : String} (h : p.Heads whole offset) (hr : whole.drop offset = f :: rest)
    (hf : f.token.isPunct text = true) (htext : text ∈ [")", "]"]) (hcloses : f.token.closes? = some c) :
    ((p.close c f).pass offset f).Heads whole (offset + 1) := by
  have hplain : Plain f := by
    refine .of_isPunct hf ?_ ?_ <;> rintro rfl <;> exact absurd htext (by decide)
  have hopens : f.token.opens? = none := by
    rw [Token.opens?_of_isPunct hf]
    simp only [List.mem_cons, List.not_mem_nil, or_false] at htext
    rcases htext with rfl | rfl <;> rfl
  have hends : f.token.endsHead = true → p.opens ≠ [] := by
    rw [Token.endsHead_of_isPunct hf]
    simp only [List.mem_cons, List.not_mem_nil, or_false] at htext
    rcases htext with rfl | rfl <;> simp
  unfold Progress.close
  split
  · exact h.advance hr hplain rfl (by simp [Progress.pass]) (fun ha ↦ ⟨ha, hends⟩) (by simp [Progress.pass])
  · rename_i expected _ outer ho
    split
    · rename_i hsame
      obtain rfl := eq_of_beq hsame
      refine h.advance hr hplain rfl id (fun ha ↦ ⟨ha, hends⟩) fun _ ↦ ?_
      rw [ho, List.map_cons]
      exact nestStep_closes hopens hcloses
    · exact h.advance hr hplain rfl (by simp [Progress.pass]) (fun ha ↦ ⟨ha, hends⟩) (by simp [Progress.pass])

/-- The first block of a statement stands behind its head. -/
theorem keep (h : p.Heads whole offset) (hassign : p.sawAssign = false) {k g : BraceGroup} (hskip : k.skip = offset)
    (rest : List Focus) (n : Nat) : ((p.closeAll.addGroup k).passGroup offset g rest).Heads whole n := by
  constructor
  case ahead => simp [Progress.passGroup, Progress.addGroup]
  case first =>
    intro he x hx
    obtain ⟨herrors, hopens⟩ := List.append_eq_nil_iff.1 he
    have hopens : p.opens = [] := by simpa using hopens
    cases hg : p.groups with
    | nil =>
      simp only [Progress.passGroup, Progress.addGroup, Progress.closeAll, hg, List.nil_append, List.head?_cons,
        Option.mem_def, Option.some.injEq] at hx
      have hhead := h.ahead herrors hg hassign
      rw [hopens] at hhead
      rw [← hx, hskip]
      exact hhead
    | cons y gs =>
      simp only [Progress.passGroup, Progress.addGroup, Progress.closeAll, hg, List.cons_append,
        List.head?_cons] at hx
      exact h.first herrors x (by rw [hg]; exact hx)

theorem finish (h : p.Heads whole offset) (kind : NodeKind) (name : Option Nat) (more : Nat) :
    (p.finish kind name more).errors = [] → ∀ g ∈ (p.finish kind name more).groups.head?,
      StatementHead [] (whole.take g.skip) :=
  h.first

theorem finishAll (h : p.Heads whole offset) (kind : NodeKind) (name : Option Nat) (more : Nat) :
    (p.closeAll.finish kind name more).errors = [] → ∀ g ∈ (p.closeAll.finish kind name more).groups.head?,
      StatementHead [] (whole.take g.skip) :=
  fun he ↦ h.first (List.append_eq_nil_iff.1 he).1

end Progress.Heads

section

variable {whole : List Focus} {offset : Nat}

theorem scan_heads (m : Mode) (p : Progress) (region : List Focus) (hr : whole.drop offset = region)
    (h : p.Heads whole offset) : (scan m offset p region).errors = [] →
      ∀ g ∈ (scan m offset p region).groups.head?, StatementHead [] (whole.take g.skip) := by
  fun_induction scan m offset p region with
  | case1 => exact h.finishAll _ _ _
  | case2 => exact h.finish _ _ _
  | case3 offset p f rest t hcode hdirective ih =>
    have hbare : f.Bare := .of_not_isCode (by simpa [Focus.isCode] using hcode)
    refine ih (drop_succ_of_drop hr) (h.skip hr hbare fun hends ↦ ?_)
    have hpunct := Token.isPunct_of_not_isCode (t := f.token) (by simpa using hcode)
    simp only [Token.endsHead, hpunct, Bool.false_or] at hends
    simpa [t, hends] using hdirective
  | case4 offset p f rest t _ hf ih => exact ih (drop_succ_of_drop hr) (h.openParen hr hf)
  | case5 offset p f rest t _ _ hf ih => exact ih (drop_succ_of_drop hr) (h.openBracket hr hf)
  | case6 offset p f rest t _ _ _ hf ih =>
    exact ih (drop_succ_of_drop hr) (h.close hr hf (by decide) (Token.closes?_of_isPunct hf))
  | case7 offset p f rest t _ _ _ _ hf ih =>
    exact ih (drop_succ_of_drop hr) (h.close hr hf (by decide) (Token.closes?_of_isPunct hf))
  | case8 offset p f rest t _ _ _ _ _ hf ih =>
    have hbare : f.Bare := .of_isPunct (Bool.and_eq_true_iff.1 hf).1 (by decide)
    exact ih (drop_succ_of_drop hr) (h.advance hr hbare.plain rfl id (by simp [Progress.pass])
      fun _ ↦ nestStep_bare hbare)
  | case9 => exact h.finish _ _ _
  | case10 offset p f rest t _ _ _ _ _ _ _ hf q g hassign ih =>
    refine ih (drop_group g hr) ⟨fun _ _ ha ↦ ?_, fun he ↦ ?_⟩
    · cases hassign.symm.trans ha
    · exact h.first (List.append_eq_nil_iff.1 (List.append_eq_nil_iff.1 he).1).1
  | case11 offset p f rest t _ _ _ _ _ _ _ hf q g hassign _ p' _ ih =>
    exact ih (drop_group g hr) (h.keep (Bool.eq_false_iff.2 hassign) (BraceGroup.of_skip ..) rest _)
  | case12 offset p f rest t _ _ _ _ _ _ _ hf q g hassign _ p' _ =>
    exact (h.keep (Bool.eq_false_iff.2 hassign) (BraceGroup.of_skip ..) rest 0).finish _ _ _
  | case13 offset p f rest t _ _ _ _ _ _ _ hf q g hassign _ _ p' ih =>
    exact ih (drop_group g hr)
      { h.keep (Bool.eq_false_iff.2 hassign) (k := { g with inFunction := false }) (g := g)
        (BraceGroup.of_skip ..) rest _ with }
  | case14 offset p f rest t _ _ _ _ _ _ _ hf q g hassign _ _ _ p' =>
    have hkeep := h.keep (Bool.eq_false_iff.2 hassign) (k := { g with inFunction := true }) (g := g)
      (BraceGroup.of_skip ..) rest 0
    exact hkeep.finish _ _ _
  | case15 offset p f rest t _ _ _ _ _ _ _ hf q g hassign _ _ _ p' =>
    exact (h.keep (Bool.eq_false_iff.2 hassign) (BraceGroup.of_skip ..) rest 0).finish _ _ _
  | case16 => exact h.finishAll _ _ _
  | case17 offset p f rest t hcode h₁ h₂ h₃ h₄ hassign hsemi h₅ h₆ ih =>
    have hbare : f.Bare := .of_isPunct_eq_false (by simp_all [t])
    refine ih (drop_succ_of_drop hr) (h.pass hr hbare fun hends hopens ↦ ?_)
    have hkind : f.token.kind ≠ .directive := by
      intro hk
      simp [t, Token.isCode, hk, Token.Kind.isCode] at hcode
    simp only [t, hopens, List.isEmpty_nil, Bool.and_true, Bool.not_eq_true] at hassign hsemi
    simp [Token.endsHead, hassign, hsemi, hkind] at hends

/-- A function definition ends with a block. -/
theorem scan_function (m : Mode) (hm : m.kind ≠ .functionDefinition) (offset : Nat) (p : Progress)
    (region : List Focus) (hkind : (scan m offset p region).kind = .functionDefinition) :
    ∃ front g, (scan m offset p region).groups = front ++ [g] ∧
      g.skip + g.size = (scan m offset p region).more + 1 := by
  fun_induction scan m offset p region with
  | case3 _ _ _ _ _ _ _ ih | case4 _ _ _ _ _ _ _ ih | case5 _ _ _ _ _ _ _ _ ih | case6 _ _ _ _ _ _ _ _ _ ih
    | case7 _ _ _ _ _ _ _ _ _ _ ih | case8 _ _ _ _ _ _ _ _ _ _ _ ih
    | case10 _ _ _ _ _ _ _ _ _ _ _ _ _ _ _ _ ih | case11 _ _ _ _ _ _ _ _ _ _ _ _ _ _ _ _ _ _ _ ih
    | case13 _ _ _ _ _ _ _ _ _ _ _ _ _ _ _ _ _ _ _ ih | case17 _ _ _ _ _ _ _ _ _ _ _ _ _ _ ih => exact ih hkind
  | case9 =>
    simp only [Progress.finish] at hkind
    split at hkind
    · cases hkind
    · exact absurd hkind hm
  | case14 offset p f rest t _ _ _ _ _ _ _ _ q g =>
    have hpos := g.inside_lt_size
    refine ⟨p.groups, { g with inFunction := true }, rfl, ?_⟩
    show (BraceGroup.of f offset m.inFunction rest).skip + g.size = offset + g.size - 1 + 1
    rw [BraceGroup.of_skip]
    omega
  | case1 | case2 | case12 | case15 | case16 => exact absurd hkind hm

theorem Progress.groups_openParen (p : Progress) (f : Focus) : (p.openParen f).groups = p.groups := by
  unfold Progress.openParen
  dsimp only
  split <;> rfl

theorem Progress.groups_close (p : Progress) (c : Char) (f : Focus) : (p.close c f).groups = p.groups := by
  unfold Progress.close
  split
  · rfl
  · split <;> rfl

/-- A control statement other than `do` ends with its block. -/
theorem scan_control_block {m : Mode} (hcontrol : m.isControl = true) (hdo : m.lead ≠ "do") (offset : Nat)
    (p : Progress) (region : List Focus) (hp : p.groups = []) :
    ∀ g ∈ (scan m offset p region).groups, g.skip + g.size = (scan m offset p region).more + 1 := by
  fun_induction scan m offset p region with
  | case1 | case2 | case9 | case16 => simp [Progress.finish, Progress.closeAll, hp]
  | case3 _ _ _ _ _ _ _ ih | case5 _ _ _ _ _ _ _ _ ih | case8 _ _ _ _ _ _ _ _ _ _ _ ih
    | case10 _ _ _ _ _ _ _ _ _ _ _ _ _ _ _ _ ih | case17 _ _ _ _ _ _ _ _ _ _ _ _ _ _ ih => exact ih hp
  | case4 _ p f _ _ _ _ ih => exact ih ((p.groups_openParen f).trans hp)
  | case6 _ p f _ _ _ _ _ _ ih | case7 _ p f _ _ _ _ _ _ _ ih => exact ih ((p.groups_close _ f).trans hp)
  | case11 offset p f rest t _ _ _ _ _ _ _ _ q g _ _ p' hlead => exact absurd (eq_of_beq hlead) hdo
  | case12 offset p f rest t _ _ _ _ _ _ _ _ q g =>
    have hpos := g.inside_lt_size
    show ∀ x ∈ p.groups ++ [g], x.skip + x.size = offset + g.size - 1 + 1
    rw [hp, List.nil_append, List.forall_mem_singleton, BraceGroup.of_skip]
    omega
  | case13 | case14 | case15 => contradiction

end

variable {inFunction : Bool} {first : Focus} {rest : List Focus}

theorem of_heads (herrors : (of inFunction first rest).errors = []) :
    ∀ g ∈ (of inFunction first rest).groups.head?, StatementHead [] ((first :: rest).take g.skip) := by
  rcases of_cases inFunction first rest with hno | ⟨kind, lead, isControl, -, hscan⟩
  · simp [hno.1]
  · rw [hscan] at herrors ⊢
    exact scan_heads _ _ _ rfl (.start _) herrors

theorem of_function (h : (of inFunction first rest).kind = .functionDefinition) :
    ∃ front g, (of inFunction first rest).groups = front ++ [g] ∧
      g.skip + g.size = (of inFunction first rest).more + 1 := by
  rcases of_cases inFunction first rest with hno | ⟨kind, lead, isControl, hkind, hscan⟩
  · exact absurd h hno.2.1
  · rw [hscan] at h ⊢
    refine scan_function _ ?_ _ _ _ h
    rintro rfl
    exact absurd hkind (by decide)

theorem of_control_block (inFunction : Bool) (rest : List Focus) (hcontrol : first.token.startsControl = true)
    (hdo : first.token.text ≠ "do") :
    ∀ g ∈ (of inFunction first rest).groups, g.skip + g.size = (of inFunction first rest).more + 1 := by
  rw [of_startsControl hcontrol]
  exact scan_control_block rfl hdo _ _ _ rfl

end ItemDraft

/-- How an item stands to its blocks. -/
structure NodeHead.Opened (all : List Focus) (h : NodeHead) (inner : List NodeHead) : Prop where
  opens : ∀ c ∈ inner, ∃ f ∈ all, f.index = c.start ∧ f.token.isPunct "\x7b" = true
  head : ∀ c ∈ inner.head?, StatementHead [] (Focus.stretch all h.start c.start)
  function : h.kind = .functionDefinition → ∃ front c, inner = front ++ [c] ∧ c.stop = h.stop
  control : ∀ f ∈ all, f.index = h.start → f.token.startsControl = true → f.token.text ≠ "do" →
    ∀ c ∈ inner, c.stop = h.stop

theorem Forest.item_opened {all rest : List Focus} {i : Nat} {f : Focus} (hall : Focus.Consecutive 0 all)
    (hc : Focus.Consecutive i (f :: rest)) (hmem : ∀ q ∈ f :: rest, q ∈ all) (hplain : Plain f) (inFunction : Bool)
    {d : ItemDraft} (hd : ItemDraft.of inFunction f rest = d) (herrors : d.errors = [])
    (content : BraceGroup → Forest) :
    ∀ o ∈ (item f d ((d.groups.map fun g ↦ block g (content g)).foldl append empty)).nodes,
      o.head.Opened all (o.children.map Outline.head) := by
  intro o ho
  cases List.mem_singleton.1 ho
  obtain rfl := hc.head
  rw [Outline.children, heads_blocks]
  have hsound : d.Sound (· ∈ all) f.index (rest.length + 1) :=
    hd ▸ ItemDraft.of_sound ⟨hc, hmem, Nat.zero_add _⟩ inFunction
  have hstop {g : BraceGroup} (hg : g ∈ d.groups) (hends : g.skip + g.size = d.more + 1) :
      g.opening.index + g.size = f.index + d.more + 1 := by
    rw [hsound.groups.at_skip g hg]
    omega
  refine ⟨fun c hin ↦ ?_, fun c hin ↦ ?_, fun hkind ↦ ?_, fun q hq hindex hcontrol hdo c hin ↦ ?_⟩
  · obtain ⟨g, hg, rfl⟩ := List.mem_map.1 hin
    have hbraced : d.Braced (f :: rest) := hd ▸ ItemDraft.of_braced hc hplain inFunction
    obtain ⟨hopening, hbrace⟩ := (hbraced.records.fits g hg).opening
    exact ⟨g.opening, hmem _ (List.mem_of_mem_take hopening), rfl, hbrace⟩
  · rw [List.head?_map] at hin
    obtain ⟨g, hg, rfl⟩ := Option.map_eq_some_iff.1 hin
    have hhead := ItemDraft.of_heads (hd ▸ herrors) g (hd ▸ hg)
    have hgroup : g ∈ d.groups := List.mem_of_head? hg
    have hlength : g.skip ≤ (f :: rest).length := by
      have hmore := hsound.more_lt
      have hhigh := hsound.groups.le_high g hgroup
      rw [List.length_cons]
      omega
    show StatementHead [] (Focus.stretch all f.index g.opening.index)
    have hplaced := hall.placed hc hmem
    rwa [Focus.stretch, hsound.groups.at_skip g hgroup, Nat.add_sub_cancel_left, ← hplaced.take_eq hlength]
  · obtain ⟨front, g, hgroups, hends⟩ := ItemDraft.of_function (hd ▸ hkind)
    rw [hd] at hgroups hends
    refine ⟨_, _, by rw [hgroups, List.map_append]; rfl, hstop (by simp [hgroups]) hends⟩
  · obtain rfl := hall.eq_of_index hq (hmem f (by simp)) hindex
    obtain ⟨g, hg, rfl⟩ := List.mem_map.1 hin
    have hends := ItemDraft.of_control_block inFunction rest hcontrol hdo
    rw [hd] at hends
    exact hstop hg (hends g hg)

theorem Tree.opened_ofFoci {tokens : List Token} (herrors : (Outline.ofFoci (Focus.all tokens)).2 = []) :
    ∀ t ∈ (ofOutline (Outline.ofFoci (Focus.all tokens)).1).preorder, t.kind.isItem = true →
      t.head.Opened (Focus.all tokens) (t.children.map head) :=
  items_without_errors herrors fun hc hP hplain inFunction _ hd hnone ↦
    Forest.item_opened (Focus.all_consecutive tokens) hc hP hplain inFunction hd hnone

end CodeStyle
