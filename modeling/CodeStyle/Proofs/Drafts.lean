import CodeStyle.Outline.Statement
import CodeStyle.Proofs.Foci

/-!
What the readers of items answer. An item never takes more tokens than its region has, its brace
groups lie in it one after another, and everything that it records comes from tokens of the region.
-/

namespace CodeStyle

theorem closeDistance_lt {depth n : Nat} {rest : List Focus} (h : closeDistance depth rest = some n) :
    n < rest.length := by
  fun_induction closeDistance depth rest generalizing n with
  | case1 => cases h
  | case2 depth f rest _ ih =>
    obtain ⟨m, hm, rfl⟩ := Option.map_eq_some_iff.1 h
    exact Nat.succ_lt_succ (ih hm)
  | case3 f rest =>
    cases h
    exact Nat.succ_pos _
  | case4 f rest _ _ depth ih =>
    obtain ⟨m, hm, rfl⟩ := Option.map_eq_some_iff.1 h
    exact Nat.succ_lt_succ (ih hm)
  | case5 depth f rest _ _ ih =>
    obtain ⟨m, hm, rfl⟩ := Option.map_eq_some_iff.1 h
    exact Nat.succ_lt_succ (ih hm)

namespace BraceGroup

theorem inside_lt_size (g : BraceGroup) : g.inside < g.size := by
  unfold size
  split <;> omega

theorem of_size_le (opening : Focus) (skip : Nat) (inFunction : Bool) (rest : List Focus) :
    (of opening skip inFunction rest).size ≤ rest.length + 1 := by
  unfold of
  split
  · rename_i n hn
    have := closeDistance_lt hn
    simp only [size, if_true]
    omega
  · simp [size]

@[simp] theorem of_skip (opening : Focus) (skip : Nat) (inFunction : Bool) (rest : List Focus) :
    (of opening skip inFunction rest).skip = skip := by
  unfold of
  split <;> rfl

@[simp] theorem of_opening (opening : Focus) (skip : Nat) (inFunction : Bool) (rest : List Focus) :
    (of opening skip inFunction rest).opening = opening := by
  unfold of
  split <;> rfl

/-- Groups that lie one after another from the `low`-th token after `start` up to the `high`-th, each
at the place of its opening brace. -/
inductive Fit (start : Nat) : Nat → Nat → List BraceGroup → Prop where
  | nil {low high : Nat} (h : low ≤ high) : Fit start low high []
  | cons {low high : Nat} {g : BraceGroup} {rest : List BraceGroup} (hlow : low ≤ g.skip)
      (hat : g.opening.index = start + g.skip) (hrest : Fit start (g.skip + g.size) high rest) :
      Fit start low high (g :: rest)

namespace Fit

variable {start low mid high : Nat} {g : BraceGroup} {gs : List BraceGroup}

theorem mono (h : Fit start low mid gs) (hm : mid ≤ high) : Fit start low high gs := by
  induction h with
  | nil h => exact .nil (Nat.le_trans h hm)
  | cons hlow hat _ ih => exact .cons hlow hat (ih hm)

theorem snoc (h : Fit start low mid gs) (hm : mid ≤ g.skip) (hat : g.opening.index = start + g.skip)
    (hs : g.skip + g.size ≤ high) : Fit start low high (gs ++ [g]) := by
  induction h with
  | nil h => exact .cons (Nat.le_trans h hm) hat (.nil hs)
  | cons hlow hat' _ ih => exact .cons hlow hat' (ih hm)

end Fit

end BraceGroup

namespace ItemDraft

open BraceGroup (Fit)

/-- A draft whose tokens are among `total` ones from the `start`-th on, with its groups among them, and
which records nothing but tokens of which `P` holds. -/
structure Sound (P : Focus → Prop) (start total : Nat) (d : ItemDraft) : Prop where
  more_lt : d.more < total
  groups : Fit start 0 (d.more + 1) d.groups
  openings : ∀ g ∈ d.groups, P g.opening
  name : ∀ i ∈ d.name, ∃ f, P f ∧ f.index = i ∧ f.token.isIdentifier = true
  errors : ∀ e ∈ d.errors, ∃ f, P f ∧ e.span = f.token.span

theorem plain_sound {P : Focus → Prop} {start total more : Nat} (kind : NodeKind) (h : more < total) :
    (plain kind more).Sound P start total :=
  ⟨h, .nil (Nat.zero_le _), by simp [plain], by simp [plain], by simp [plain]⟩

/-- What holds while a statement is read, when its next token is the `offset`-th. -/
structure Progress.Sound (P : Focus → Prop) (start total offset : Nat) (p : Progress) : Prop where
  last_lt : p.last < total
  groups : Fit start 0 (min offset (p.last + 1)) p.groups
  openings : ∀ g ∈ p.groups, P g.opening
  opens : ∀ o ∈ p.opens, ∃ f, P f ∧ o.2 = f.token.span
  previous : ∀ f ∈ p.previous, P f
  callName : ∀ i ∈ p.callName, ∃ f, P f ∧ f.index = i ∧ f.token.isIdentifier = true
  errors : ∀ e ∈ p.errors, ∃ f, P f ∧ e.span = f.token.span

namespace Progress.Sound

variable {P : Focus → Prop} {start total offset : Nat} {p : Progress} {f : Focus}

theorem first (h : 0 < total) : Progress.start.Sound P start total 0 :=
  ⟨h, .nil (Nat.zero_le _), by simp [Progress.start], by simp [Progress.start],
    by simp [Progress.start], by simp [Progress.start], by simp [Progress.start]⟩

theorem skip (h : p.Sound P start total offset) : p.Sound P start total (offset + 1) :=
  { h with groups := h.groups.mono (by omega) }

theorem pass (h : p.Sound P start total offset) (hf : P f) (ho : offset < total) :
    (p.pass offset f).Sound P start total (offset + 1) :=
  { h with
    last_lt := ho
    groups := h.groups.mono (by simp only [Progress.pass]; omega)
    previous := by simpa [Progress.pass] using hf }

theorem closeAll (h : p.Sound P start total offset) : p.closeAll.Sound P start total offset := by
  refine { h with opens := by simp [Progress.closeAll], errors := ?_ }
  intro e he
  rcases List.mem_append.1 he with he | he
  · exact h.errors e he
  · obtain ⟨o, ho, rfl⟩ := List.mem_map.1 he
    exact h.opens o (List.mem_reverse.1 ho)

theorem opens_cons (h : p.Sound P start total offset) (c : Char) (hf : P f) :
    ∀ o ∈ (c, f.token.span) :: p.opens, ∃ f, P f ∧ o.2 = f.token.span := by
  intro o ho
  rcases List.mem_cons.1 ho with rfl | ho
  · exact ⟨f, hf, rfl⟩
  · exact h.opens o ho

theorem openBracket (h : p.Sound P start total offset) (hf : P f) :
    (p.openBracket f).Sound P start total offset :=
  { h with opens := h.opens_cons ']' hf }

theorem openParen (h : p.Sound P start total offset) (hf : P f) :
    (p.openParen f).Sound P start total offset := by
  unfold Progress.openParen
  dsimp only
  split
  · refine { h with opens := h.opens_cons ')' hf, callName := ?_ }
    intro i hi
    obtain ⟨q, hq, rfl⟩ := Option.map_eq_some_iff.1 hi
    obtain ⟨hq, hid⟩ := Option.filter_eq_some_iff.1 hq
    exact ⟨q, h.previous q hq, rfl, hid⟩
  · exact { h with opens := h.opens_cons ')' hf }

theorem close (h : p.Sound P start total offset) (c : Char) (hf : P f) :
    (p.close c f).Sound P start total offset := by
  have herrors (i : Imbalance) : ∀ e ∈ p.errors ++ [⟨i, f.token.span⟩],
      ∃ f, P f ∧ e.span = f.token.span := by
    intro e he
    rcases List.mem_append.1 he with he | he
    · exact h.errors e he
    · cases List.mem_singleton.1 he
      exact ⟨f, hf, rfl⟩
  unfold Progress.close
  split
  · exact { h with errors := herrors _ }
  · rename_i o outer ho
    have hopens : ∀ o ∈ outer, ∃ f, P f ∧ o.2 = f.token.span := fun o hm ↦
      h.opens o (by rw [ho]; exact List.mem_cons_of_mem _ hm)
    split
    · exact { h with opens := hopens }
    · exact { h with opens := hopens, errors := herrors _ }

variable {g : BraceGroup} {rest : List Focus}

theorem groupErrors (h : p.Sound P start total offset) (hg : P g.opening) :
    { p with errors := p.errors ++ g.errors }.Sound P start total offset := by
  refine { h with errors := ?_ }
  intro e he
  rcases List.mem_append.1 he with he | he
  · exact h.errors e he
  · unfold BraceGroup.errors at he
    split at he
    · cases he
    · cases List.mem_singleton.1 he
      exact ⟨g.opening, hg, rfl⟩

theorem previous_passGroup (hg : P g.opening) (hrest : ∀ f ∈ rest, P f) :
    ∀ f ∈ (p.passGroup offset g rest).previous, P f := by
  intro f hf
  rcases Option.or_eq_some_iff.1 hf with hf | ⟨-, hf⟩
  · exact hrest f (List.mem_of_getElem? hf)
  · cases hf
    exact hg

theorem passGroup (h : p.Sound P start total offset) (hg : P g.opening) (hrest : ∀ f ∈ rest, P f)
    (hsize : offset + g.size ≤ total) :
    (p.passGroup offset g rest).Sound P start total (offset + g.size) := by
  have hpos := g.inside_lt_size
  refine { h with last_lt := ?_, groups := ?_, previous := previous_passGroup hg hrest }
  · simp only [Progress.passGroup]
    omega
  · exact h.groups.mono (by simp only [Progress.passGroup]; omega)

theorem addGroup (h : p.Sound P start total offset) (hg : P g.opening) (hrest : ∀ f ∈ rest, P f)
    (hsize : offset + g.size ≤ total) (hskip : g.skip = offset)
    (hat : g.opening.index = start + offset) (inFunction : Bool) :
    ((p.addGroup { g with inFunction }).passGroup offset g rest).Sound P start total
      (offset + g.size) := by
  have hpos := g.inside_lt_size
  refine { h with last_lt := ?_, groups := ?_, openings := ?_, previous := previous_passGroup hg hrest }
  · simp only [Progress.passGroup]
    omega
  · refine h.groups.snoc (by dsimp only; omega) (by dsimp only; omega) ?_
    simp only [Progress.passGroup, BraceGroup.size] at hpos ⊢
    omega
  · intro q hq
    rcases List.mem_append.1 hq with hq | hq
    · exact h.openings q hq
    · cases List.mem_singleton.1 hq
      exact hg

theorem finish (h : p.Sound P start total offset) (kind : NodeKind) :
    (p.finish kind none p.last).Sound P start total :=
  ⟨h.last_lt, h.groups.mono (by simp only [Progress.finish]; omega), h.openings,
    by simp [Progress.finish], h.errors⟩

theorem finishNamed (h : p.Sound P start total offset) (kind : NodeKind) :
    (p.finish kind p.callName p.last).Sound P start total :=
  { h.finish kind with name := h.callName }

theorem finishAt (h : p.Sound P start total offset) (ho : offset < total) (kind : NodeKind) :
    (p.finish kind none offset).Sound P start total :=
  { h.finish kind with
    more_lt := ho
    groups := h.groups.mono (by simp only [Progress.finish]; omega) }

end Progress.Sound

/-- The tokens that are left when the next one is the `offset`-th of `total`. -/
structure Ahead (P : Focus → Prop) (start total offset : Nat) (region : List Focus) : Prop where
  consecutive : Focus.Consecutive (start + offset) region
  holds : ∀ f ∈ region, P f
  length : offset + region.length = total

namespace Ahead

variable {P : Focus → Prop} {start total offset : Nat} {f : Focus} {rest : List Focus}

theorem head (h : Ahead P start total offset (f :: rest)) : P f := h.holds f (List.mem_cons_self ..)

theorem later (h : Ahead P start total offset (f :: rest)) : ∀ f ∈ rest, P f :=
  fun q hq ↦ h.holds q (List.mem_cons_of_mem f hq)

theorem lt (h : Ahead P start total offset (f :: rest)) : offset < total := by
  have := h.length
  simp only [List.length_cons] at this
  omega

theorem tail (h : Ahead P start total offset (f :: rest)) : Ahead P start total (offset + 1) rest :=
  ⟨h.consecutive.tail, h.later, by rw [← h.length, List.length_cons]; omega⟩

theorem group_le (h : Ahead P start total offset (f :: rest)) (inFunction : Bool) :
    offset + (BraceGroup.of f offset inFunction rest).size ≤ total := by
  have := BraceGroup.of_size_le f offset inFunction rest
  rw [← h.length, List.length_cons]
  omega

theorem afterGroup (h : Ahead P start total offset (f :: rest)) (inFunction : Bool) :
    Ahead P start total (offset + (BraceGroup.of f offset inFunction rest).size)
      (rest.drop ((BraceGroup.of f offset inFunction rest).size - 1)) := by
  have hle := BraceGroup.of_size_le f offset inFunction rest
  have hpos := (BraceGroup.of f offset inFunction rest).inside_lt_size
  refine ⟨?_, fun q hq ↦ h.later q (List.mem_of_mem_drop hq), ?_⟩
  · have hc := h.consecutive.tail.drop ((BraceGroup.of f offset inFunction rest).size - 1)
    rwa [show start + offset + 1 + ((BraceGroup.of f offset inFunction rest).size - 1) =
      start + (offset + (BraceGroup.of f offset inFunction rest).size) by omega] at hc
  · rw [← h.length, List.length_drop, List.length_cons]
    omega

end Ahead

/-- A statement takes no token that its region does not have, wherever it ends. -/
theorem scan_sound {P : Focus → Prop} {start total : Nat} (m : Mode) (offset : Nat) (p : Progress)
    (region : List Focus) (hr : Ahead P start total offset region)
    (h : p.Sound P start total offset) : (scan m offset p region).Sound P start total := by
  -- A brace at `offset` opens a group of the tokens ahead, whose record may be kept with `p`.
  have grouped {p : Progress} {f : Focus} {rest : List Focus} {offset : Nat} (inFunction : Bool)
      (hr : Ahead P start total offset (f :: rest)) (h : p.closeAll.Sound P start total offset) :
      ((p.closeAll.addGroup { BraceGroup.of f offset m.inFunction rest with inFunction }).passGroup
        offset (BraceGroup.of f offset m.inFunction rest) rest).Sound P start total
        (offset + (BraceGroup.of f offset m.inFunction rest).size) :=
    h.addGroup (by simpa using hr.head) hr.later (hr.group_le _) (by simp)
      (by simpa using hr.consecutive.head) inFunction
  fun_induction scan m offset p region with
  | case1 => exact h.closeAll.finish m.kind
  | case2 => exact h.finish m.kind
  | case3 offset p f rest t _ _ ih => exact ih hr.tail h.skip
  | case4 offset p f rest t _ _ ih => exact ih hr.tail ((h.openParen hr.head).pass hr.head hr.lt)
  | case5 offset p f rest t _ _ _ ih => exact ih hr.tail ((h.openBracket hr.head).pass hr.head hr.lt)
  | case6 offset p f rest t _ _ _ _ ih => exact ih hr.tail ((h.close ')' hr.head).pass hr.head hr.lt)
  | case7 offset p f rest t _ _ _ _ _ ih => exact ih hr.tail ((h.close ']' hr.head).pass hr.head hr.lt)
  | case8 offset p f rest t _ _ _ _ _ _ ih =>
    have hp : { p with sawAssign := true }.Sound P start total offset := { h with }
    exact ih hr.tail (hp.pass hr.head hr.lt)
  | case9 offset p f rest => exact h.finishAt hr.lt _
  | case10 offset p f rest t _ _ _ _ _ _ _ _ q g _ ih =>
    have hg : P g.opening := by simpa [g] using hr.head
    exact ih (hr.afterGroup _) ((h.closeAll.groupErrors hg).passGroup hg hr.later (hr.group_le _))
  | case11 offset p f rest t _ _ _ _ _ _ _ _ q g _ _ p' _ ih =>
    exact ih (hr.afterGroup _) (grouped g.inFunction hr h.closeAll)
  | case12 offset p f rest t _ _ _ _ _ _ _ _ q g _ _ p' _ =>
    exact (grouped g.inFunction hr h.closeAll).finish m.kind
  | case13 offset p f rest t _ _ _ _ _ _ _ _ q g _ _ _ p' ih =>
    exact ih (hr.afterGroup _) { grouped false hr h.closeAll with }
  | case14 offset p f rest t _ _ _ _ _ _ _ _ q g _ _ _ _ p' =>
    exact (grouped true hr h.closeAll).finishNamed _
  | case15 offset p f rest t _ _ _ _ _ _ _ _ q g _ _ _ _ p' =>
    exact (grouped g.inFunction hr h.closeAll).finish m.kind
  | case16 => exact h.closeAll.finish m.kind
  | case17 offset p f rest t _ _ _ _ _ _ _ _ _ ih => exact ih hr.tail (h.pass hr.head hr.lt)

theorem caseReach_le {n : Nat} (ternary taken last : Nat) (rest : List Focus) (hlast : last ≤ n)
    (htaken : taken + rest.length ≤ n) : caseReach ternary taken last rest ≤ n := by
  fun_induction caseReach ternary taken last rest with
  | case1 => exact hlast
  | case2 _ _ _ f rest _ _ ih => exact ih hlast (by grind)
  | case3 _ _ _ f rest _ _ _ ih => exact ih (by grind) (by grind)
  | case4 => grind
  | case5 _ _ f rest _ _ _ _ _ ih => exact ih (by grind) (by grind)
  | case6 => exact hlast
  | case7 _ _ _ f rest _ _ _ _ _ ih => exact ih (by grind) (by grind)

theorem commentReach_le {n : Nat} (lineBreak : Bool) (taken last : Nat) (rest : List Focus)
    (hlast : last ≤ n) (htaken : taken + rest.length ≤ n) :
    commentReach lineBreak taken last rest ≤ n := by
  fun_induction commentReach lineBreak taken last rest with
  | case1 => exact hlast
  | case2 _ _ _ f rest _ _ ih => exact ih hlast (by grind)
  | case3 => exact hlast
  | case4 _ _ _ f rest _ _ _ _ ih => exact ih hlast (by grind)
  | case5 _ _ _ f rest _ _ _ _ ih => exact ih (by grind) (by grind)
  | case6 => exact hlast

section

variable {P : Focus → Prop} {start : Nat} {first : Focus} {rest : List Focus}

theorem statement_sound (hr : Ahead P start (rest.length + 1) 0 (first :: rest)) (inFunction : Bool) :
    (statement inFunction first rest).Sound P start (rest.length + 1) := by
  fun_cases statement inFunction first rest with
  | case1 t colon isLabel k hk hl =>
    have hid : first.token.isIdentifier = true := by
      simp only [isLabel, Bool.and_eq_true] at hl
      exact hl.1.2
    have hlt : k < rest.length := (List.findIdx?_eq_some_iff_findIdx_eq.1 hk).1
    refine ⟨Nat.succ_lt_succ hlt, .nil (Nat.zero_le _), by simp, ?_, by simp⟩
    intro i hi
    cases hi
    exact ⟨first, hr.head, rfl, hid⟩
  | case2 =>
    exact plain_sound .statement (Nat.lt_succ_of_le (caseReach_le 0 0 0 rest (Nat.zero_le _) (by omega)))
  | case3 => exact scan_sound _ 0 _ _ hr (.first (Nat.succ_pos _))

/-- Every item lies in its region and records nothing else. -/
theorem of_sound (hr : Ahead P start (rest.length + 1) 0 (first :: rest)) (inFunction : Bool) :
    (of inFunction first rest).Sound P start (rest.length + 1) := by
  unfold of
  split
  · refine plain_sound .commentBlock ?_
    split
    · exact Nat.lt_succ_of_le (commentReach_le false 0 0 rest (Nat.zero_le _) (by omega))
    · exact Nat.succ_pos _
  · split
    · exact plain_sound _ (Nat.succ_pos _)
    · exact statement_sound hr inFunction

end

end ItemDraft

end CodeStyle
