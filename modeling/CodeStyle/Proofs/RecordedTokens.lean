import CodeStyle.Proofs.DelimiterErrors
import Mathlib.Data.List.Perm.Subperm

/-!
Where the records of an item come from. The name of a function and the delimiters that are wrong are
tokens of the item itself, outside of its brace groups, and no token is recorded twice. So no two delimiter
errors of a file lie at the same token.
-/

namespace CodeStyle

/-- The spans of tokens with different indices, for which `R` holds. -/
def Span.OfTokens (P : Focus → Prop) (R : Nat → Prop) (spans : List Span) : Prop :=
  ∃ fs : List Focus, spans.Perm (fs.map (·.token.span)) ∧ (fs.map Focus.index).Nodup ∧
    ∀ f ∈ fs, P f ∧ R f.index

namespace Span.OfTokens

variable {P : Focus → Prop} {R S T : Nat → Prop} {spans others : List Span} {f : Focus}

theorem nil : OfTokens P R [] := ⟨[], .nil, .nil, by simp⟩

theorem single (hf : P f) (hR : R f.index) : OfTokens P R [f.token.span] :=
  ⟨[f], .refl _, by simp, by simp [hf, hR]⟩

theorem mono (h : OfTokens P R spans) (hS : ∀ i, R i → S i) : OfTokens P S spans := by
  obtain ⟨fs, hperm, hnodup, hfs⟩ := h
  exact ⟨fs, hperm, hnodup, fun f hf ↦ ⟨(hfs f hf).1, hS _ (hfs f hf).2⟩⟩

theorem append (h : OfTokens P R spans) (ho : OfTokens P S others) (hRS : ∀ i, R i → ¬S i)
    (hR : ∀ i, R i → T i) (hS : ∀ i, S i → T i) : OfTokens P T (spans ++ others) := by
  obtain ⟨fs, hperm, hnodup, hfs⟩ := h
  obtain ⟨gs, hpermo, hnodupo, hgs⟩ := ho
  refine ⟨fs ++ gs, by rw [List.map_append]; exact hperm.append hpermo, ?_, ?_⟩
  · rw [List.map_append]
    refine List.nodup_append.2 ⟨hnodup, hnodupo, fun i hi j hj hij ↦ ?_⟩
    obtain ⟨f, hf, rfl⟩ := List.mem_map.1 hi
    obtain ⟨g, hg, rfl⟩ := List.mem_map.1 hj
    exact hRS _ (hfs f hf).2 (hij ▸ (hgs g hg).2)
  · intro f hf
    rcases List.mem_append.1 hf with hf | hf
    · exact ⟨(hfs f hf).1, hR _ (hfs f hf).2⟩
    · exact ⟨(hgs f hf).1, hS _ (hgs f hf).2⟩

theorem subperm (h : OfTokens P R spans) (hs : others.Subperm spans) : OfTokens P R others := by
  obtain ⟨fs, hperm, hnodup, hfs⟩ := h
  obtain ⟨kept, hkept, hsub⟩ := hs.trans hperm.subperm
  obtain ⟨gs, hgs, rfl⟩ := List.sublist_map_iff.1 hsub
  exact ⟨gs, hkept.symm, hnodup.sublist (hgs.map _), fun f hf ↦ hfs f (hgs.subset hf)⟩

end Span.OfTokens

/-- Whether a token lies in a group or is one of its braces. -/
def BraceGroup.Holds (g : BraceGroup) (i : Nat) : Prop := g.opening.index ≤ i ∧ i < g.opening.index + g.size

theorem BraceGroup.Fit.low_le {start low high : Nat} {gs : List BraceGroup} (h : Fit start low high gs) :
    ∀ g ∈ gs, low ≤ g.skip := by
  induction h with
  | nil => simp
  | cons hlow _ _ ih => exact List.forall_mem_cons.2 ⟨hlow, fun q hq ↦ by have := ih q hq; omega⟩

namespace ItemDraft

/-- The tokens of an item outside of its groups. -/
def Owns (start : Nat) (d : ItemDraft) (i : Nat) : Prop :=
  start ≤ i ∧ i ≤ start + d.more ∧ ∀ g ∈ d.groups, ¬g.Holds i

/-- What an item records are tokens that it owns. -/
structure Tells (P : Focus → Prop) (start : Nat) (d : ItemDraft) : Prop where
  name : ∀ i ∈ d.name, d.Owns start i
  errors : Span.OfTokens P (d.Owns start) (d.errors.map DelimiterError.span)

namespace Progress

/-- The tokens of a statement so far, outside of its groups. -/
def Owns (start offset : Nat) (p : Progress) (i : Nat) : Prop :=
  start ≤ i ∧ i < start + offset ∧ i ≤ start + p.last ∧ ∀ g ∈ p.groups, ¬g.Holds i

namespace Owns

variable {start offset n i : Nat} {p q : Progress} {f : Focus}

theorem advance (h : p.Owns start offset i) (hgroups : q.groups = p.groups) (hlast : q.last + 1 = offset + n) :
    q.Owns start (offset + n) i := by
  obtain ⟨hstart, hlt, -, houtside⟩ := h
  exact ⟨hstart, by omega, by omega, hgroups ▸ houtside⟩

/-- The next token is in none of the groups that were passed. -/
theorem next (hbehind : ∀ g ∈ p.groups, g.opening.index + g.size ≤ start + offset)
    (hindex : f.index = start + offset) (hgroups : q.groups = p.groups) (hlast : q.last + 1 = offset + n)
    (hn : 0 < n) : q.Owns start (offset + n) f.index := by
  refine ⟨by omega, by omega, by omega, fun g hg hholds ↦ ?_⟩
  have hbefore := hbehind g (hgroups ▸ hg)
  have hlt := hholds.2
  omega

theorem keep {g k : BraceGroup} (h : p.Owns start offset i) (hopening : k.opening = f)
    (hindex : f.index = start + offset) (rest : List Focus) :
    ((p.addGroup k).passGroup offset g rest).Owns start (offset + g.size) i := by
  have hpos := g.inside_lt_size
  obtain ⟨hstart, hlt, -, houtside⟩ := h
  refine ⟨hstart, by omega, by simp only [Progress.passGroup]; omega, fun q hq ↦ ?_⟩
  rcases List.mem_append.1 hq with hq | hq
  · exact houtside q hq
  · cases List.mem_singleton.1 hq
    rintro ⟨hle, -⟩
    rw [hopening] at hle
    omega

end Owns

/-- The delimiters that are wrong, and those that may become so. -/
def blamed (p : Progress) : List Span := p.errors.map DelimiterError.span ++ p.opens.map Prod.snd

/-- What a statement has recorded when its next token is the `offset`-th, with `region` ahead. What comes
before a group without a closing brace is not looked at again. -/
structure Tells (P : Focus → Prop) (start offset : Nat) (region : List Focus) (p : Progress) : Prop where
  behind : ∀ g ∈ p.groups, g.opening.index + g.size ≤ start + offset
  callName : ∀ i ∈ p.callName, p.Owns start offset i
  previous : region ≠ [] → ∀ f ∈ p.previous, f.token.isIdentifier = true → p.Owns start offset f.index
  blamed : Span.OfTokens P (p.Owns start offset) p.blamed

namespace Tells

variable {P : Focus → Prop} {start offset n : Nat} {p q : Progress} {f : Focus} {rest later : List Focus}

theorem first (region : List Focus) : Progress.start.Tells P start 0 region :=
  ⟨by simp [Progress.start], by simp [Progress.start], by simp [Progress.start], Span.OfTokens.nil⟩

theorem skip (h : p.Tells P start offset (f :: rest)) : p.Tells P start (offset + 1) rest := by
  have howns (i : Nat) (hi : p.Owns start offset i) : p.Owns start (offset + 1) i :=
    ⟨hi.1, Nat.lt_succ_of_lt hi.2.1, hi.2.2⟩
  refine ⟨fun g hg ↦ Nat.le_succ_of_le (h.behind g hg), fun i hi ↦ howns i (h.callName i hi), ?_, h.blamed.mono howns⟩
  exact fun _ f hf hid ↦ howns _ (h.previous (by simp) f hf hid)

/-- Moving on past `n` tokens, of which at most the first is recorded. -/
theorem advance (h : p.Tells P start offset (f :: rest)) (hf : P f) (hindex : f.index = start + offset)
    (hgroups : q.groups = p.groups) (hlast : q.last + 1 = offset + n) (hn : 0 < n)
    (hname : ∀ i ∈ q.callName, p.Owns start offset i) (hblamed : q.blamed.Subperm (f.token.span :: p.blamed))
    (hprevious : later ≠ [] → ∀ g ∈ q.previous, g.token.isIdentifier = true → g = f) :
    q.Tells P start (offset + n) later := by
  have hold (i : Nat) (hi : p.Owns start offset i) : q.Owns start (offset + n) i := hi.advance hgroups hlast
  have hnew : q.Owns start (offset + n) f.index := .next h.behind hindex hgroups hlast hn
  refine ⟨fun g hg ↦ ?_, fun i hi ↦ hold i (hname i hi), fun hlater g hg hid ↦ ?_, ?_⟩
  · have hbehind := h.behind g (hgroups ▸ hg)
    omega
  · rw [hprevious hlater g hg hid]
    exact hnew
  · have hsingle : Span.OfTokens P (· = f.index) [f.token.span] := .single hf rfl
    refine (hsingle.append h.blamed (fun i hi ho ↦ ?_) (fun i hi ↦ hi ▸ hnew) hold).subperm hblamed
    have hlt := ho.2.1
    omega

theorem pass (h : p.Tells P start offset (f :: rest)) (hf : P f) (hindex : f.index = start + offset) :
    (p.pass offset f).Tells P start (offset + 1) later :=
  h.advance hf hindex rfl rfl (Nat.succ_pos 0) h.callName (List.sublist_cons_self _ _).subperm
    fun _ _ hg _ ↦ (Option.some.inj hg).symm

theorem openParen (h : p.Tells P start offset (f :: rest)) (hf : P f) (hindex : f.index = start + offset) :
    ((p.openParen f).pass offset f).Tells P start (offset + 1) later := by
  have hblamed : ((p.openParen f).pass offset f).blamed.Perm (f.token.span :: p.blamed) := by
    unfold Progress.openParen
    dsimp only
    split <;> exact List.perm_middle
  refine h.advance hf hindex ?_ rfl (Nat.succ_pos 0) ?_ hblamed.subperm
    fun _ _ hg _ ↦ (Option.some.inj hg).symm
  · unfold Progress.openParen
    dsimp only
    split <;> rfl
  · intro i hi
    unfold Progress.openParen at hi
    dsimp only at hi
    split at hi
    · obtain ⟨g, hg, rfl⟩ := Option.map_eq_some_iff.1 hi
      obtain ⟨hg, hid⟩ := Option.filter_eq_some_iff.1 hg
      exact h.previous (by simp) g hg hid
    · exact h.callName i hi

theorem openBracket (h : p.Tells P start offset (f :: rest)) (hf : P f) (hindex : f.index = start + offset) :
    ((p.openBracket f).pass offset f).Tells P start (offset + 1) later :=
  h.advance hf hindex rfl rfl (Nat.succ_pos 0) h.callName List.perm_middle.subperm
    fun _ _ hg _ ↦ (Option.some.inj hg).symm

theorem close (h : p.Tells P start offset (f :: rest)) (hf : P f) (hindex : f.index = start + offset) (c : Char) :
    ((p.close c f).pass offset f).Tells P start (offset + 1) later := by
  have hblamed : (p.close c f).blamed.Subperm (f.token.span :: p.blamed) := by
    unfold Progress.close Progress.blamed
    split
    case h_1 hopens =>
      rw [hopens, List.map_append, List.append_assoc]
      exact List.perm_middle.subperm
    case h_2 expected span outer hopens =>
      rw [hopens]
      split
      · exact (((List.sublist_cons_self _ _).append_left _).trans (List.sublist_cons_self _ _)).subperm
      · rw [List.map_append, List.append_assoc]
        exact List.perm_middle.subperm.trans (((List.sublist_cons_self _ _).append_left _).cons_cons _).subperm
  have hgroups : (p.close c f).groups = p.groups := by
    unfold Progress.close
    split
    · rfl
    · split <;> rfl
  have hname : (p.close c f).callName = p.callName := by
    unfold Progress.close
    split
    · rfl
    · split <;> rfl
  exact h.advance hf hindex hgroups rfl (Nat.succ_pos 0) (fun i hi ↦ h.callName i (hname ▸ hi)) hblamed
    fun _ _ hg _ ↦ (Option.some.inj hg).symm

theorem closeAll (h : p.Tells P start offset later) : p.closeAll.Tells P start offset later := by
  have hblamed : p.closeAll.blamed.Perm p.blamed := by
    simp only [Progress.closeAll, Progress.blamed, List.map_append, List.map_map, List.map_nil, List.append_nil]
    exact ((List.reverse_perm p.opens).map Prod.snd).append_left _
  exact ⟨h.behind, h.callName, h.previous, h.blamed.subperm hblamed.subperm⟩

/-- Behind a group, only a brace is looked back at. -/
theorem previous_group {inFunction : Bool} {g : BraceGroup}
    (hg : BraceGroup.of f offset inFunction rest = g) (hlater : rest.drop (g.size - 1) ≠ []) :
    ∀ q ∈ rest[g.size - 2]?.or (some g.opening), q.token.isIdentifier = false := by
  have hbrace {q : Focus} {text : String} (hq : q.token.isPunct text = true) : q.token.isIdentifier = false := by
    cases hk : q.token.kind <;> simp_all [Token.isPunct, Token.isIdentifier]
  subst hg
  unfold BraceGroup.of at hlater ⊢
  split at hlater
  case h_1 n hn =>
    obtain ⟨-, -, close, hclose, hpunct⟩ := closeDistance_some (b := .none) hn rfl
    simp only [BraceGroup.size, if_true, Nat.add_sub_cancel, hclose, Option.some_or]
    rintro q ⟨⟩
    exact hbrace hpunct
  case h_2 hn => simp [BraceGroup.size] at hlater

theorem flat {inFunction : Bool} {g : BraceGroup} (h : p.Tells P start offset (f :: rest)) (hf : P f)
    (hindex : f.index = start + offset) (hg : BraceGroup.of f offset inFunction rest = g) :
    ({ p with errors := p.errors ++ g.errors }.passGroup offset g rest).Tells P start (offset + g.size)
      (rest.drop (g.size - 1)) := by
  have hpos := g.inside_lt_size
  have hopening : g.opening = f := by rw [← hg, BraceGroup.of_opening]
  have herrors : (g.errors.map DelimiterError.span).Sublist [f.token.span] := by
    unfold BraceGroup.errors
    split
    · exact List.nil_sublist _
    · rw [hopening]
      exact .refl _
  refine h.advance hf hindex rfl ?_ (by omega) h.callName ?_ ?_
  · simp only [Progress.passGroup]
    omega
  · simp only [Progress.blamed, Progress.passGroup, List.map_append, List.append_assoc]
    exact ((herrors.append_right _).append_left _).subperm.trans List.perm_middle.subperm
  · intro hlater q hq hid
    have hnot := previous_group hg hlater q hq
    rw [hid] at hnot
    cases hnot

theorem keep {inFunction : Bool} {g k : BraceGroup} (h : p.Tells P start offset (f :: rest))
    (hindex : f.index = start + offset) (hg : BraceGroup.of f offset inFunction rest = g)
    (hopening : k.opening = f) (hsize : k.size = g.size) :
    ((p.addGroup k).passGroup offset g rest).Tells P start (offset + g.size) (rest.drop (g.size - 1)) := by
  have hpos := g.inside_lt_size
  have hold (i : Nat) (hi : p.Owns start offset i) :
      ((p.addGroup k).passGroup offset g rest).Owns start (offset + g.size) i := hi.keep hopening hindex rest
  refine ⟨fun q hq ↦ ?_, fun i hi ↦ hold i (h.callName i hi), fun hlater q hq hid ↦ ?_, h.blamed.mono hold⟩
  · rcases List.mem_append.1 hq with hq | hq
    · have hbehind := h.behind q hq
      omega
    · cases List.mem_singleton.1 hq
      rw [hopening, hsize]
      omega
  · have hnot := previous_group hg hlater q hq
    rw [hid] at hnot
    cases hnot

theorem finish (h : p.Tells P start offset later) (kind : NodeKind) {name : Option Nat}
    (hname : ∀ i ∈ name, i ∈ p.callName) : (p.finish kind name p.last).Tells P start :=
  ⟨fun i hi ↦ ⟨(h.callName i (hname i hi)).1, (h.callName i (hname i hi)).2.2⟩,
    (h.blamed.mono fun _ hi ↦ ⟨hi.1, hi.2.2⟩).subperm (List.sublist_append_left _ _).subperm⟩

theorem finishAt (h : p.Tells P start offset later) (kind : NodeKind) :
    (p.finish kind none offset).Tells P start :=
  ⟨by simp [Progress.finish],
    (h.blamed.mono fun _ hi ↦ ⟨hi.1, Nat.le_of_lt hi.2.1, hi.2.2.2⟩).subperm (List.sublist_append_left _ _).subperm⟩

end Tells

end Progress

section

variable {P : Focus → Prop} {start total : Nat} {first : Focus} {rest : List Focus}

/-- Wherever a statement ends, what it has recorded lies outside of its groups. -/
theorem scan_tells (m : Mode) (offset : Nat) (p : Progress) (region : List Focus)
    (hr : Ahead P start total offset region) (h : p.Tells P start offset region) :
    (scan m offset p region).Tells P start := by
  have hkeep {p : Progress} {f : Focus} {rest : List Focus} {offset : Nat} (inFunction : Bool)
      (hr : Ahead P start total offset (f :: rest)) (h : p.Tells P start offset (f :: rest)) :=
    h.closeAll.keep (k := { BraceGroup.of f offset m.inFunction rest with inFunction }) hr.consecutive.head rfl
      (BraceGroup.of_opening ..) rfl
  fun_induction scan m offset p region with
  | case1 => exact h.closeAll.finish m.kind (by simp)
  | case2 => exact h.finish m.kind (by simp)
  | case3 offset p f rest t _ _ ih => exact ih hr.tail h.skip
  | case4 offset p f rest t _ _ ih => exact ih hr.tail (h.openParen hr.head hr.consecutive.head)
  | case5 offset p f rest t _ _ _ ih => exact ih hr.tail (h.openBracket hr.head hr.consecutive.head)
  | case6 offset p f rest t _ _ _ _ ih => exact ih hr.tail (h.close hr.head hr.consecutive.head ')')
  | case7 offset p f rest t _ _ _ _ _ ih => exact ih hr.tail (h.close hr.head hr.consecutive.head ']')
  | case8 offset p f rest t _ _ _ _ _ _ ih =>
    have hp : { p with sawAssign := true }.Tells P start offset (f :: rest) := { h with }
    exact ih hr.tail (hp.pass hr.head hr.consecutive.head)
  | case9 => exact h.finishAt _
  | case10 offset p f rest t _ _ _ _ _ _ _ _ q g _ ih =>
    exact ih (hr.afterGroup _) (h.closeAll.flat hr.head hr.consecutive.head rfl)
  | case11 offset p f rest t _ _ _ _ _ _ _ _ q g _ _ p' _ ih =>
    exact ih (hr.afterGroup _) (hkeep g.inFunction hr h)
  | case12 offset p f rest t _ _ _ _ _ _ _ _ q g _ _ p' _ =>
    exact (hkeep g.inFunction hr h).finish m.kind (by simp)
  | case13 offset p f rest t _ _ _ _ _ _ _ _ q g _ _ _ p' ih =>
    exact ih (hr.afterGroup _) { hkeep false hr h with }
  | case14 offset p f rest t _ _ _ _ _ _ _ _ q g _ _ _ _ p' =>
    exact (hkeep true hr h).finish _ fun _ hi ↦ hi
  | case15 offset p f rest t _ _ _ _ _ _ _ _ q g _ _ _ _ p' =>
    exact (hkeep g.inFunction hr h).finish m.kind (by simp)
  | case16 => exact h.closeAll.finish m.kind (by simp)
  | case17 offset p f rest t _ _ _ _ _ _ _ _ _ ih => exact ih hr.tail (h.pass hr.head hr.consecutive.head)

theorem plain_tells (kind : NodeKind) (more : Nat) : (plain kind more).Tells P start :=
  ⟨by simp [plain], Span.OfTokens.nil⟩

theorem statement_tells (hr : Ahead P start total 0 (first :: rest)) (inFunction : Bool) :
    (statement inFunction first rest).Tells P start := by
  fun_cases statement inFunction first rest with
  | case1 t colon isLabel k hk hl =>
    refine ⟨?_, Span.OfTokens.nil⟩
    rintro i ⟨⟩
    have hindex := hr.consecutive.head
    exact ⟨by omega, by omega, by simp⟩
  | case2 => exact plain_tells _ _
  | case3 => exact scan_tells _ 0 _ _ hr (.first _)

theorem of_tells (hr : Ahead P start total 0 (first :: rest)) (inFunction : Bool) :
    (of inFunction first rest).Tells P start := by
  unfold of
  split
  · exact plain_tells _ _
  · split
    · exact plain_tells _ _
    · exact statement_tells hr inFunction

end

end ItemDraft

namespace Forest

variable {P : Focus → Prop} {start low high : Nat} {g : BraceGroup} {t : Forest}

theorem block_errors_ofTokens (hg : P g.opening)
    (h : Span.OfTokens P (fun j ↦ g.opening.index + 1 ≤ j ∧ j < g.opening.index + 1 + g.inside)
      (t.errors.map DelimiterError.span)) :
    Span.OfTokens P g.Holds ((block g t).errors.map DelimiterError.span) := by
  have hpos := g.inside_lt_size
  have hown : Span.OfTokens P (· = g.opening.index) (g.errors.map DelimiterError.span) := by
    unfold BraceGroup.errors
    split
    · exact .nil
    · exact .single hg rfl
  rw [block, List.map_append]
  refine hown.append h (fun j hj hin ↦ ?_) (fun j hj ↦ ?_) fun j hj ↦ ?_
  · omega
  · exact ⟨by omega, by omega⟩
  · exact ⟨by omega, by omega⟩

theorem blocks_errors_ofTokens {gs : List BraceGroup} {content : BraceGroup → Forest}
    (hfit : BraceGroup.Fit start low high gs)
    (h : ∀ g ∈ gs, Span.OfTokens P g.Holds ((block g (content g)).errors.map DelimiterError.span)) :
    Span.OfTokens P (fun j ↦ ∃ g ∈ gs, g.Holds j)
      (gs.flatMap fun g ↦ (block g (content g)).errors.map DelimiterError.span) := by
  induction hfit with
  | nil => exact .nil
  | cons hlow hat hrest ih =>
    rename_i low high g rest
    rw [List.flatMap_cons]
    refine (h g (by simp)).append (ih fun q hq ↦ h q (by simp [hq])) ?_ (fun j hj ↦ ⟨g, by simp, hj⟩) ?_
    · rintro j ⟨-, hlt⟩ ⟨q, hq, hle, -⟩
      have hbehind := hrest.low_le q hq
      have hskip := hrest.at_skip q hq
      omega
    · rintro j ⟨q, hq, hj⟩
      exact ⟨q, by simp [hq], hj⟩

theorem item_errors_ofTokens {f : Focus} {d : ItemDraft} {content : BraceGroup → Forest} {total : Nat}
    (hd : d.Sound P f.index total) (htells : d.Tells P f.index)
    (h : ∀ g ∈ d.groups, Span.OfTokens P g.Holds ((block g (content g)).errors.map DelimiterError.span)) :
    Span.OfTokens P (fun j ↦ f.index ≤ j ∧ j ≤ f.index + d.more)
      ((item f d ((d.groups.map fun g ↦ block g (content g)).foldl append empty)).errors.map
        DelimiterError.span) := by
  have hblocks := blocks_errors_ofTokens hd.groups h
  have herrors : ((d.groups.map fun g ↦ block g (content g)).foldl append empty).errors.map DelimiterError.span =
      d.groups.flatMap fun g ↦ (block g (content g)).errors.map DelimiterError.span := by
    simp [foldl_append, empty, List.map_flatMap, List.flatMap_map]
  rw [item, List.map_append, herrors]
  refine htells.errors.append hblocks ?_ (fun j hj ↦ ⟨hj.1, hj.2.1⟩) ?_
  · rintro j ⟨-, -, houtside⟩ ⟨g, hg, hholds⟩
    exact houtside g hg hholds
  · rintro j ⟨g, hg, hle, hlt⟩
    have hskip := hd.groups.at_skip g hg
    have hhigh := hd.groups.le_high g hg
    omega

end Forest

namespace Outline

variable {P : Focus → Prop} {i n : Nat} {region : List Focus}

theorem inside_errors_ofTokens {deep : Prop} [Decidable deep] {t : Forest}
    (h : Span.OfTokens P (fun j ↦ i ≤ j ∧ j < i + (region.take n).length) (t.errors.map DelimiterError.span)) :
    Span.OfTokens P (fun j ↦ i ≤ j ∧ j < i + n)
      ((if deep then Forest.empty else t).errors.map DelimiterError.span) := by
  split
  · exact .nil
  · refine h.mono fun j hj ↦ ?_
    have hle := List.length_take_le n region
    omega

/-- The delimiter errors of a region lie at different tokens of it. -/
theorem forest_errors_ofTokens (depth : Nat) (inFunction recovering : Bool) (hc : Focus.Consecutive i region)
    (hP : ∀ f ∈ region, P f) :
    Span.OfTokens P (fun j ↦ i ≤ j ∧ j < i + region.length)
      ((forest depth inFunction recovering region).errors.map DelimiterError.span) := by
  fun_induction forest depth inFunction recovering region generalizing i with
  | case1 => exact .nil
  | case2 _ _ _ f rest =>
    rename_i ih
    refine (ih hc.tail fun q hq ↦ hP q (by simp [hq])).mono fun j hj ↦ ?_
    rw [List.length_cons]
    omega
  | case3 _ _ f rest | case4 _ _ _ f rest =>
    rename_i ih
    have hstray : Span.OfTokens P (· = i) [f.token.span] := .single (hP f (by simp)) hc.head
    have hrest := ih hc.tail fun q hq ↦ hP q (by simp [hq])
    refine hstray.append hrest (fun j hj hin ↦ ?_) (fun j hj ↦ ?_) fun j hj ↦ ?_
    · omega
    · rw [List.length_cons]
      omega
    · rw [List.length_cons]
      omega
  | case5 _ inFunction _ f rest _ _ _ g content ihInside =>
    rename_i ihRest
    have hindex := hc.head
    have hopening : g.opening = f := BraceGroup.of_opening ..
    have hle : g.size ≤ rest.length + 1 := BraceGroup.of_size_le ..
    have hpos := g.inside_lt_size
    have hinside : Span.OfTokens P (fun j ↦ i + 1 ≤ j ∧ j < i + 1 + g.inside)
        (content.errors.map DelimiterError.span) :=
      inside_errors_ofTokens (ihInside (hc.tail.take _) fun q hq ↦ hP q (by simp [List.mem_of_mem_take hq]))
    have hblock := Forest.block_errors_ofTokens (g := g) (t := content) (hopening ▸ hP f (by simp))
      (by rwa [hopening, hindex])
    have hrest := ihRest (hc.tail.drop (g.size - 1)) fun q hq ↦ hP q (by simp [List.mem_of_mem_drop hq])
    rw [List.length_drop] at hrest
    rw [Forest.append, List.map_append, List.length_cons]
    refine hblock.append hrest ?_ ?_ ?_
    · rintro j ⟨-, hlt⟩ ⟨hge, -⟩
      rw [hopening] at hlt
      omega
    · rintro j ⟨hge, hlt⟩
      rw [hopening] at hge hlt
      omega
    · omega
  | case6 _ inFunction _ f rest _ _ _ d blocks ihInside =>
    rename_i ihRest
    have hindex := hc.head
    subst hindex
    have hahead : ItemDraft.Ahead P f.index (rest.length + 1) 0 (f :: rest) := ⟨hc, hP, Nat.zero_add _⟩
    have hd : d.Sound P f.index (rest.length + 1) := ItemDraft.of_sound hahead inFunction
    have hmore := hd.more_lt
    have hitem : Span.OfTokens P (fun j ↦ f.index ≤ j ∧ j ≤ f.index + d.more)
        ((Forest.item f d (blocks.foldl Forest.append Forest.empty)).errors.map DelimiterError.span) := by
      refine Forest.item_errors_ofTokens hd (ItemDraft.of_tells hahead inFunction) fun g hg ↦ ?_
      refine Forest.block_errors_ofTokens (hd.openings g hg) ?_
      rw [hd.groups.at_skip g hg, Nat.add_right_comm]
      exact inside_errors_ofTokens (ihInside g ((hc.tail.drop g.skip).take _) fun q hq ↦
        hP q (by simp [List.mem_of_mem_drop (List.mem_of_mem_take hq)]))
    have hrest := ihRest (hc.tail.drop d.more) fun q hq ↦ hP q (by simp [List.mem_of_mem_drop hq])
    rw [List.length_drop] at hrest
    rw [Forest.append, List.map_append, List.length_cons]
    exact hitem.append hrest (by omega) (by omega) (by omega)

theorem ofFoci_errors_ofTokens (hc : Focus.Consecutive 0 region) :
    Span.OfTokens (· ∈ region) (fun _ ↦ True) ((ofFoci region).2.map DelimiterError.span) := by
  have hperm := (List.mergeSort_perm (forest 0 false false region).errors fun a b ↦
    a.span.startByte ≤ b.span.startByte).map DelimiterError.span
  exact ((forest_errors_ofTokens 0 false false hc fun _ hf ↦ hf).mono fun _ _ ↦ trivial).subperm hperm.subperm

end Outline

end CodeStyle
