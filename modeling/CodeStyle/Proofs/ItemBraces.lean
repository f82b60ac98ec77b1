import CodeStyle.Proofs.Braces

/-!
The braces of an item. Whatever ends it, an item takes its brace groups whole: it closes nothing that it
did not open, what it leaves open goes on to the end of its region, and it records the outermost brace
that is left.
-/

namespace CodeStyle

open Braces (Plain)

theorem Token.Kind.isCode_of_isComment {k : Token.Kind} (h : k.isComment = true) : k.isCode = false := by
  cases k <;> simp_all [isComment, isCode]

theorem Braces.Plain.of_isPunct {f : Focus} {text : String} (hf : f.token.isPunct text = true)
    (hopen : text ≠ "\x7b") (hclose : text ≠ "\x7d") : Plain f :=
  ⟨Token.isPunct_eq_false hf hopen, Token.isPunct_eq_false hf hclose⟩

namespace BraceGroup

/-- The tokens inside a group of the item with the tokens `rest` after its first. -/
def content (g : BraceGroup) (rest : List Focus) : List Focus := (rest.drop g.skip).take g.inside

/-- A group among the tokens with the braces `b`. -/
structure Fits (rest : List Focus) (b : Braces) (g : BraceGroup) : Prop where
  strays : (Braces.of (g.content rest)).strays = []
  pairs : ∀ q ∈ (Braces.of (g.content rest)).pairs, q ∈ b.pairs
  closed : g.closed = true → (Braces.of (g.content rest)).opens = [] ∧
    ∃ close, (g.opening, close) ∈ b.pairs ∧ close.index + 1 = g.opening.index + g.size
  unclosed : g.closed = false → b.opens = (Braces.of (g.content rest)).opens ++ [g.opening] ∧
    g.skip + g.inside = rest.length

theorem Fits.mono {rest : List Focus} {b c : Braces} {g : BraceGroup} (h : g.Fits rest b)
    (ho : b.opens = []) (hp : ∀ q ∈ b.pairs, q ∈ c.pairs) : g.Fits rest c := by
  refine ⟨h.strays, fun q hq ↦ hp q (h.pairs q hq), fun hg ↦ ?_, fun hg ↦ ?_⟩
  · obtain ⟨hopens, close, hclose, hindex⟩ := h.closed hg
    exact ⟨hopens, close, hp _ hclose, hindex⟩
  · have hlast := (h.unclosed hg).1
    simp [ho] at hlast

end BraceGroup

def Imbalance.OnBrace (i : Imbalance) : Prop := i = .unmatchedClose '\x7d' ∨ i = .unclosedOpen '\x7b'

namespace ItemDraft

/-- What an item records of its braces `b`. -/
structure Records (rest : List Focus) (b : Braces) (groups : List BraceGroup)
    (errors : List DelimiterError) : Prop where
  strays : b.strays = []
  fits : ∀ g ∈ groups, g.Fits rest b
  blamed : ∀ e ∈ errors, e.imbalance.OnBrace →
    e.imbalance = .unclosedOpen '\x7b' ∧ ∃ o ∈ b.opens, e.span = o.token.span
  outermost : ∀ o ∈ b.opens.getLast?,
    DelimiterError.mk (.unclosedOpen '\x7b') o.token.span ∈ errors ∨
      ∃ g ∈ groups, g.closed = false ∧ g.opening = o

/-- The braces of an item in the region `whole`. -/
structure Braced (whole : List Focus) (d : ItemDraft) : Prop where
  records : Records whole.tail (Braces.of (whole.take (d.more + 1))) d.groups d.errors
  settled : (Braces.of (whole.take (d.more + 1))).opens = [] ∨ whole.length ≤ d.more + 1

/-- What holds of braces while a statement is read, when its next token is the `offset`-th. -/
structure Progress.Braced (whole : List Focus) (offset : Nat) (p : Progress) : Prop where
  records : Records whole.tail (Braces.of (whole.take offset)) p.groups p.errors
  last : Braces.of (whole.take (p.last + 1)) = Braces.of (whole.take offset)
  settled : (Braces.of (whole.take offset)).opens = [] ∨
    whole.length ≤ offset ∧ whole.length ≤ p.last + 1

section

variable {whole rest : List Focus} {offset : Nat} {f : Focus}

theorem take_succ_of_drop (h : whole.drop offset = f :: rest) :
    whole.take (offset + 1) = whole.take offset ++ [f] := by
  have hget : whole[offset]? = some f := by rw [← List.head?_drop, h, List.head?_cons]
  rw [List.take_add_one, hget, Option.toList_some]

theorem drop_succ_of_drop (h : whole.drop offset = f :: rest) : whole.drop (offset + 1) = rest := by
  rw [← List.tail_drop, h, List.tail_cons]

theorem drop_add_of_drop {n : Nat} (hn : 0 < n) (h : whole.drop offset = f :: rest) :
    whole.drop (offset + n) = rest.drop (n - 1) := by
  obtain ⟨k, rfl⟩ := Nat.exists_eq_add_of_lt hn
  rw [← List.drop_drop, h, Nat.zero_add, List.drop_succ_cons, Nat.add_sub_cancel]

theorem length_of_drop (h : whole.drop offset = f :: rest) :
    offset + rest.length + 1 = whole.length := by
  have hlen := congrArg List.length h
  rw [List.length_drop, List.length_cons] at hlen
  omega

theorem of_take_succ (h : whole.drop offset = f :: rest) (hf : Plain f) :
    Braces.of (whole.take (offset + 1)) = Braces.of (whole.take offset) := by
  rw [take_succ_of_drop h, Braces.of_snoc, Braces.step_plain hf]

end

namespace Progress.Braced

variable {whole rest : List Focus} {offset : Nat} {f : Focus} {p q : Progress}

theorem opens (h : p.Braced whole offset) (hr : whole.drop offset = f :: rest) :
    (Braces.of (whole.take offset)).opens = [] := by
  have hlen := length_of_drop hr
  rcases h.settled with hnil | ⟨hle, -⟩
  · exact hnil
  · omega

theorem first (hf : Plain f) : Progress.start.Braced (f :: rest) 0 := by
  have hrecords : Records rest .none [] [] := ⟨rfl, by simp, by simp, by simp [Braces.none]⟩
  refine ⟨hrecords, ?_, .inl rfl⟩
  exact Braces.of_cons_plain hf []

theorem skip (h : p.Braced whole offset) (hr : whole.drop offset = f :: rest) (hf : Plain f) :
    p.Braced whole (offset + 1) := by
  have hsame := of_take_succ hr hf
  refine ⟨?_, ?_, .inl ?_⟩
  · rw [hsame]
    exact h.records
  · rw [hsame]
    exact h.last
  · rw [hsame]
    exact h.opens hr

theorem pass (h : p.Braced whole offset) (hr : whole.drop offset = f :: rest) (hf : Plain f) :
    (p.pass offset f).Braced whole (offset + 1) :=
  { h.skip hr hf with
    last := rfl
    settled := (h.skip hr hf).settled.imp_right fun hle ↦ ⟨hle.1, hle.1⟩ }

theorem ofErrors (h : p.Braced whole offset) (hgroups : q.groups = p.groups) (hlast : q.last = p.last)
    (hsub : ∀ e ∈ p.errors, e ∈ q.errors)
    (hnew : ∀ e ∈ q.errors, e ∈ p.errors ∨ ¬e.imbalance.OnBrace) : q.Braced whole offset := by
  refine ⟨⟨h.records.strays, ?_, ?_, ?_⟩, ?_, ?_⟩
  · rw [hgroups]
    exact h.records.fits
  · intro e he hon
    exact h.records.blamed e ((hnew e he).resolve_right fun hnot ↦ hnot hon) hon
  · intro o ho
    rw [hgroups]
    exact (h.records.outermost o ho).imp_left (hsub _)
  · rw [hlast]
    exact h.last
  · rw [hlast]
    exact h.settled

theorem closeAll (h : p.Braced whole offset) : p.closeAll.Braced whole offset := by
  refine h.ofErrors rfl rfl (fun e he ↦ List.mem_append_left _ he) fun e he ↦ ?_
  rcases List.mem_append.1 he with he | he
  · exact .inl he
  · right
    obtain ⟨o, -, rfl⟩ := List.mem_map.1 he
    unfold Progress.unclosed
    split <;> simp [Imbalance.OnBrace]

theorem openParen (h : p.Braced whole offset) (f : Focus) : (p.openParen f).Braced whole offset := by
  unfold Progress.openParen
  dsimp only
  split <;> exact h.ofErrors rfl rfl (fun _ he ↦ he) fun _ he ↦ .inl he

theorem openBracket (h : p.Braced whole offset) (f : Focus) : (p.openBracket f).Braced whole offset :=
  h.ofErrors rfl rfl (fun _ he ↦ he) fun _ he ↦ .inl he

theorem close (h : p.Braced whole offset) {c : Char} (hc : c ≠ '\x7d') (f : Focus) :
    (p.close c f).Braced whole offset := by
  have added (i : Imbalance) (hi : ¬i.OnBrace) :
      ∀ e ∈ p.errors ++ [⟨i, f.token.span⟩], e ∈ p.errors ∨ ¬e.imbalance.OnBrace := by
    intro e he
    rcases List.mem_append.1 he with he | he
    · exact .inl he
    · cases List.mem_singleton.1 he
      exact .inr hi
  unfold Progress.close
  split
  · refine h.ofErrors rfl rfl (fun e he ↦ List.mem_append_left _ he) (added _ ?_)
    simp [Imbalance.OnBrace, hc]
  · split
    · exact h.ofErrors rfl rfl (fun _ he ↦ he) fun _ he ↦ .inl he
    · exact h.ofErrors rfl rfl (fun e he ↦ List.mem_append_left _ he) (added _ (by simp [Imbalance.OnBrace]))

end Progress.Braced

section

variable {whole rest : List Focus} {start offset : Nat} {f : Focus} {p q : Progress} {g : BraceGroup}
  {inFunction : Bool}

/-- The braces of a group behind tokens that leave nothing open. -/
theorem group_fits (hc : Focus.Consecutive start whole) (hr : whole.drop offset = f :: rest)
    (hf : f.token.isPunct "\x7b" = true) (hg : g = BraceGroup.of f offset inFunction rest)
    {b : Braces} (hb : Braces.of (whole.take offset) = b) (ho : b.opens = []) :
    ∃ c, Braces.of (whole.take (offset + g.size)) = b.extend c ∧ c.strays = [] ∧
      g.Fits whole.tail (b.extend c) ∧ (g.closed = true → c.opens = []) ∧
      (g.closed = false → whole.length = offset + g.size) := by
  have htail : whole.tail.drop offset = rest := by rw [List.drop_tail, drop_succ_of_drop hr]
  have htake : whole.take (offset + g.size) = whole.take offset ++ (f :: rest).take g.size := by
    rw [List.take_add, hr]
  have hsplit : Braces.of (whole.take (offset + g.size)) = b.extend (Braces.of ((f :: rest).take g.size)) := by
    rw [htake, Braces.of_append (.inr (by rw [hb, ho])), hb]
  have hcontent : g.content whole.tail = rest.take g.inside := by
    rw [BraceGroup.content, hg, BraceGroup.of_skip, htail]
  have hahead : Focus.Consecutive (start + offset) (f :: rest) := hr ▸ hc.drop offset
  refine ⟨_, hsplit, ?_⟩
  rcases BraceGroup.of_cases f offset inFunction rest with
    ⟨inner, close, later, rfl, hclose, hstrays, hopens, hgroup⟩ | ⟨hstrays, hgroup⟩
  · rw [hgroup] at hg
    subst hg
    have hpart : (f :: (inner ++ close :: later)).take (inner.length + 2) = f :: (inner ++ [close]) := by
      simp [List.take_append, List.take_of_length_le]
    have hinner : (inner ++ close :: later).take inner.length = inner := by simp
    have hindex : close.index = start + offset + 1 + inner.length :=
      hahead.tail inner.length close (by simp)
    simp only [BraceGroup.size, if_true, hpart, Braces.of_closed hf hclose hstrays hopens]
    refine ⟨trivial, ⟨?_, ?_, fun _ ↦ ?_, by simp⟩, by simp⟩
    · rw [hcontent, hinner, hstrays]
    · rw [hcontent, hinner]
      intro q hq
      simp [Braces.extend, hq]
    · rw [hcontent, hinner]
      refine ⟨hopens, close, by simp [Braces.extend], ?_⟩
      simp only [BraceGroup.size, if_true, hahead.head]
      omega
  · rw [hgroup] at hg
    subst hg
    have hlen := length_of_drop hr
    simp only [BraceGroup.size, Bool.false_eq_true, if_false, List.take_succ_cons, List.take_length,
      Braces.of_unclosed hf hstrays]
    refine ⟨trivial, ⟨?_, ?_, by simp, fun _ ↦ ⟨?_, ?_⟩⟩, by simp, fun _ ↦ by omega⟩
    · rw [hcontent, List.take_length, hstrays]
    · rw [hcontent, List.take_length]
      intro q hq
      simp [Braces.extend, hq]
    · rw [hcontent, List.take_length]
      simp [Braces.extend, ho]
    · rw [List.length_tail]
      dsimp only
      omega

theorem front_group_fits (hc : Focus.Consecutive start (f :: rest)) (hf : f.token.isPunct "\x7b" = true)
    (hg : g = BraceGroup.of f 0 inFunction rest) {b : Braces} (hb : Braces.of ((f :: rest).take g.size) = b) :
    b.strays = [] ∧ g.Fits rest b ∧ (g.closed = true → b.opens = []) ∧
      (g.closed = false → (f :: rest).length = g.size) := by
  have hdrop : (f :: rest).drop 0 = f :: rest := rfl
  obtain ⟨c, hwhole, hstrays, hfits, hclosed, hunclosed⟩ := group_fits (b := .none) hc hdrop hf hg rfl rfl
  rw [Nat.zero_add] at hwhole hunclosed
  rw [Braces.none_extend] at hwhole hfits
  obtain rfl := hb.symm.trans hwhole
  exact ⟨hstrays, hfits, hclosed, hunclosed⟩

/-- A group at the front of a region leaves no brace open, unless it goes on to the end. -/
theorem front_group_settled (hc : Focus.Consecutive start (f :: rest)) (hf : f.token.isPunct "\x7b" = true)
    (hg : g = BraceGroup.of f 0 inFunction rest) :
    (Braces.of ((f :: rest).take g.size)).opens = [] ∨ (f :: rest).length ≤ g.size := by
  obtain ⟨-, -, hclosed, hunclosed⟩ := front_group_fits hc hf hg rfl
  cases hcase : g.closed with
  | true => exact .inl (hclosed hcase)
  | false => exact .inr (hunclosed hcase).le

/-- A statement goes on after a brace group, which it keeps as a block or passes over. -/
theorem Progress.Braced.group (h : p.Braced whole offset) (hc : Focus.Consecutive start whole)
    (hr : whole.drop offset = f :: rest) (hf : f.token.isPunct "\x7b" = true)
    (hg : g = BraceGroup.of f offset inFunction rest) (hlast : q.last + 1 = offset + g.size)
    (hgroups : ∀ x ∈ q.groups, x ∈ p.groups ∨ ∃ inFunction, x = { g with inFunction })
    (herrors : ∀ e ∈ q.errors, e ∈ p.errors ∨ e ∈ g.errors)
    (hkept : g.closed = false → DelimiterError.mk (.unclosedOpen '\x7b') f.token.span ∈ q.errors ∨
      ∃ x ∈ q.groups, x.closed = false ∧ x.opening = f) :
    q.Braced whole (offset + g.size) := by
  have hopening : g.opening = f := by rw [hg, BraceGroup.of_opening]
  have ho := h.opens hr
  obtain ⟨c, hwhole, hstrays, hfits, hclosed, hunclosed⟩ := group_fits hc hr hf hg rfl ho
  refine ⟨?_, by rw [hlast], ?_⟩
  · rw [hwhole]
    constructor
    case strays => simp [Braces.extend, h.records.strays, hstrays]
    case fits =>
      intro x hx
      rcases hgroups x hx with hx | ⟨inFunction, rfl⟩
      · exact (h.records.fits x hx).mono ho fun q hq ↦ by simp [Braces.extend, hq]
      · exact { hfits with }
    case blamed =>
      intro e he hon
      rcases herrors e he with he | he
      · obtain ⟨-, o, hmem, -⟩ := h.records.blamed e he hon
        rw [ho] at hmem
        cases hmem
      · unfold BraceGroup.errors at he
        split at he
        · cases he
        · rename_i hopen
          cases List.mem_singleton.1 he
          refine ⟨rfl, g.opening, ?_, rfl⟩
          rw [(hfits.unclosed (by simpa using hopen)).1]
          simp
    case outermost =>
      intro o hmem
      cases hcase : g.closed with
      | true => simp [Braces.extend, hclosed hcase, ho] at hmem
      | false =>
        rw [(hfits.unclosed hcase).1, List.getLast?_concat, hopening] at hmem
        cases hmem
        exact hkept hcase
  · rw [hwhole]
    cases hcase : g.closed with
    | true => exact .inl (by simp [Braces.extend, hclosed hcase, ho])
    | false =>
      have hend := hunclosed hcase
      exact .inr ⟨by omega, by omega⟩

theorem Progress.Braced.finish (h : p.Braced whole offset) (kind : NodeKind) (name : Option Nat) :
    (p.finish kind name p.last).Braced whole := by
  refine ⟨?_, ?_⟩
  · show Records whole.tail (Braces.of (whole.take (p.last + 1))) p.groups p.errors
    rw [h.last]
    exact h.records
  · show (Braces.of (whole.take (p.last + 1))).opens = [] ∨ whole.length ≤ p.last + 1
    rw [h.last]
    exact h.settled.imp_right And.right

theorem Progress.Braced.finishAt (h : p.Braced whole offset) (hr : whole.drop offset = f :: rest)
    (hf : Plain f) (kind : NodeKind) : (p.finish kind Option.none offset).Braced whole := by
  have hnext := h.skip hr hf
  exact ⟨hnext.records, hnext.settled.imp_right And.left⟩

theorem Progress.Braced.keep (h : p.Braced whole offset) (hc : Focus.Consecutive start whole)
    (hr : whole.drop offset = f :: rest) (hf : f.token.isPunct "\x7b" = true)
    (hg : g = BraceGroup.of f offset inFunction rest) (inside : Bool) :
    ((p.closeAll.addGroup { g with inFunction := inside }).passGroup offset g rest).Braced whole
      (offset + g.size) := by
  have hpos := g.inside_lt_size
  refine h.closeAll.group hc hr hf hg (by simp only [Progress.passGroup]; omega) ?_ (fun _ he ↦ .inl he) ?_
  · intro x hx
    rcases List.mem_append.1 hx with hx | hx
    · exact .inl hx
    · exact .inr ⟨inside, List.mem_singleton.1 hx⟩
  · intro hopen
    refine .inr ⟨_, List.mem_append_right _ (List.mem_singleton_self _), hopen, ?_⟩
    rw [hg, BraceGroup.of_opening]

theorem Progress.Braced.flat (h : p.Braced whole offset) (hc : Focus.Consecutive start whole)
    (hr : whole.drop offset = f :: rest) (hf : f.token.isPunct "\x7b" = true)
    (hg : g = BraceGroup.of f offset inFunction rest) :
    ({ p.closeAll with errors := p.closeAll.errors ++ g.errors }.passGroup offset g rest).Braced whole
      (offset + g.size) := by
  have hpos := g.inside_lt_size
  have hopening : g.opening = f := by rw [hg, BraceGroup.of_opening]
  refine h.closeAll.group hc hr hf hg (by simp only [Progress.passGroup]; omega) (fun _ hx ↦ .inl hx)
    (fun _ he ↦ List.mem_append.1 he) fun hopen ↦ .inl (List.mem_append_right _ ?_)
  simp [BraceGroup.errors, hopen, hopening]

theorem drop_group (g : BraceGroup) (hr : whole.drop offset = f :: rest) :
    whole.drop (offset + g.size) = rest.drop (g.size - 1) :=
  drop_add_of_drop (Nat.zero_lt_of_lt g.inside_lt_size) hr

/-- Wherever a statement ends, it has taken its brace groups whole. -/
theorem scan_braced (m : Mode) (p : Progress) (region : List Focus)
    (hc : Focus.Consecutive start whole) (hr : whole.drop offset = region)
    (h : p.Braced whole offset) : (scan m offset p region).Braced whole := by
  fun_induction scan m offset p region with
  | case1 => exact h.closeAll.finish m.kind Option.none
  | case2 => exact h.finish m.kind Option.none
  | case3 offset p f rest t hcode _ ih =>
    exact ih (drop_succ_of_drop hr) (h.skip hr (Braces.plain_of_not_isCode (by simpa [Focus.isCode] using hcode)))
  | case4 offset p f rest t _ hf ih =>
    exact ih (drop_succ_of_drop hr) ((h.openParen f).pass hr (.of_isPunct hf (by decide) (by decide)))
  | case5 offset p f rest t _ _ hf ih =>
    exact ih (drop_succ_of_drop hr) ((h.openBracket f).pass hr (.of_isPunct hf (by decide) (by decide)))
  | case6 offset p f rest t _ _ _ hf ih =>
    exact ih (drop_succ_of_drop hr) ((h.close (by decide) f).pass hr (.of_isPunct hf (by decide) (by decide)))
  | case7 offset p f rest t _ _ _ _ hf ih =>
    exact ih (drop_succ_of_drop hr) ((h.close (by decide) f).pass hr (.of_isPunct hf (by decide) (by decide)))
  | case8 offset p f rest t _ _ _ _ _ hf ih =>
    have hp : { p with sawAssign := true }.Braced whole offset := { h with }
    have hplain : Plain f := .of_isPunct (Bool.and_eq_true_iff.1 hf).1 (by decide) (by decide)
    exact ih (drop_succ_of_drop hr) (hp.pass hr hplain)
  | case9 offset p f rest t _ _ _ _ _ _ hf =>
    exact h.finishAt hr (.of_isPunct (Bool.and_eq_true_iff.1 hf).1 (by decide) (by decide)) _
  | case10 offset p f rest t _ _ _ _ _ _ _ hf q g _ ih => exact ih (drop_group g hr) (h.flat hc hr hf rfl)
  | case11 offset p f rest t _ _ _ _ _ _ _ hf q g _ _ p' _ ih =>
    exact ih (drop_group g hr) (h.keep hc hr hf rfl g.inFunction)
  | case12 offset p f rest t _ _ _ _ _ _ _ hf q g _ _ p' _ =>
    exact (h.keep hc hr hf rfl g.inFunction).finish m.kind Option.none
  | case13 offset p f rest t _ _ _ _ _ _ _ hf q g _ _ _ p' ih =>
    exact ih (drop_group g hr) { h.keep hc hr hf rfl false with }
  | case14 offset p f rest t _ _ _ _ _ _ _ hf q g _ _ _ _ p' =>
    exact (h.keep hc hr hf rfl true).finish _ _
  | case15 offset p f rest t _ _ _ _ _ _ _ hf q g _ _ _ _ p' =>
    exact (h.keep hc hr hf rfl g.inFunction).finish m.kind Option.none
  | case16 => exact h.closeAll.finish m.kind Option.none
  | case17 offset p f rest t _ _ _ _ _ _ _ hopen hclose ih =>
    exact ih (drop_succ_of_drop hr) (h.pass hr ⟨by simpa using hopen, by simpa using hclose⟩)

theorem scan_kind (m : Mode) (offset : Nat) (p : Progress) (region : List Focus) :
    (scan m offset p region).kind ∈ [m.kind, .typeDefinition, .functionDefinition] := by
  fun_induction scan m offset p region with
  | case3 | case4 | case5 | case6 | case7 | case8 | case10 | case11 | case13 | case17 => assumption
  | case9 =>
    simp only [Progress.finish]
    split <;> simp
  | case1 | case2 | case12 | case14 | case15 | case16 => simp [Progress.finish]

end

section

variable {rest : List Focus} {first : Focus} {taken last : Nat}

theorem forall_take_succ {P : Focus → Prop} {f : Focus} {later : List Focus}
    (h : ∀ q ∈ rest.take taken, P q) (hr : rest.drop taken = f :: later) (hf : P f) :
    ∀ q ∈ rest.take (taken + 1), P q := by
  intro q hq
  rw [take_succ_of_drop hr] at hq
  rcases List.mem_append.1 hq with hq | hq
  · exact h q hq
  · cases List.mem_singleton.1 hq
    exact hf

theorem forall_take_of_le {P : Focus → Prop} (h : ∀ q ∈ rest.take taken, P q) (hle : last ≤ taken) :
    ∀ q ∈ rest.take last, P q :=
  fun q hq ↦ h q ((List.take_subset_take_left rest hle) hq)

theorem commentReach_isCode (lineBreak : Bool) (ahead : List Focus) (hr : rest.drop taken = ahead)
    (h : ∀ q ∈ rest.take taken, q.isCode = false) (hlast : last ≤ taken) :
    ∀ q ∈ rest.take (commentReach lineBreak taken last ahead), q.isCode = false := by
  have notCode {f : Focus} {k : Token.Kind} (hf : (f.token.kind == k) = true) (hk : k.isCode = false) :
      f.isCode = false := by
    rw [Focus.isCode, Token.isCode, eq_of_beq hf, hk]
  fun_induction commentReach lineBreak taken last ahead with
  | case1 => exact forall_take_of_le h hlast
  | case2 _ _ _ f later here hf ih =>
    exact ih (drop_succ_of_drop hr) (forall_take_succ h hr (notCode hf rfl)) (Nat.le_succ_of_le hlast)
  | case3 => exact forall_take_of_le h hlast
  | case4 _ _ _ f later here _ hf _ ih =>
    exact ih (drop_succ_of_drop hr) (forall_take_succ h hr (notCode hf rfl)) (Nat.le_succ_of_le hlast)
  | case5 _ _ _ f later here _ _ hf ih =>
    exact ih (drop_succ_of_drop hr) (forall_take_succ h hr (Token.Kind.isCode_of_isComment hf)) (Nat.le_refl _)
  | case6 => exact forall_take_of_le h hlast

theorem caseReach_plain (ternary : Nat) (ahead : List Focus) (hr : rest.drop taken = ahead)
    (h : ∀ q ∈ rest.take taken, Plain q) (hlast : last ≤ taken) :
    ∀ q ∈ rest.take (caseReach ternary taken last ahead), Plain q := by
  fun_induction caseReach ternary taken last ahead with
  | case1 => exact forall_take_of_le h hlast
  | case2 _ _ _ f later here hf ih =>
    have hplain : Plain f := Braces.plain_of_not_isCode (by simpa using hf)
    exact ih (drop_succ_of_drop hr) (forall_take_succ h hr hplain) (Nat.le_succ_of_le hlast)
  | case3 _ _ _ f later here _ hf ih =>
    have hplain : Plain f := .of_isPunct hf (by decide) (by decide)
    exact ih (drop_succ_of_drop hr) (forall_take_succ h hr hplain) (Nat.le_refl _)
  | case4 _ _ f later here _ _ hf =>
    exact forall_take_succ h hr (.of_isPunct hf (by decide) (by decide))
  | case5 _ _ f later here _ _ hf _ ih =>
    have hplain : Plain f := .of_isPunct hf (by decide) (by decide)
    exact ih (drop_succ_of_drop hr) (forall_take_succ h hr hplain) (Nat.le_refl _)
  | case6 => exact forall_take_of_le h hlast
  | case7 _ _ _ f later here _ _ _ hf ih =>
    have hplain : Plain f := by
      simp only [Bool.or_eq_true, not_or, Bool.not_eq_true] at hf
      exact ⟨hf.1.2, hf.2⟩
    exact ih (drop_succ_of_drop hr) (forall_take_succ h hr hplain) (Nat.le_refl _)

theorem label_tokens {k : Nat} (hk : rest.findIdx? Focus.isCode = some k)
    (hcolon : (rest.find? Focus.isCode).any (·.token.isPunct ":") = true) :
    ∀ q ∈ rest.take (k + 1), q.isCode = false ∨ q.token.isPunct ":" = true := by
  obtain ⟨hlt, hcode, hbefore⟩ := List.findIdx?_eq_some_iff_getElem.1 hk
  have hr : rest.drop k = rest[k] :: rest.drop (k + 1) := List.drop_eq_getElem_cons hlt
  refine forall_take_succ (fun q hq ↦ .inl ?_) hr (.inr ?_)
  · obtain ⟨i, hi, rfl⟩ := List.mem_take_iff_getElem.1 hq
    simpa using hbefore i (by omega)
  · have hfind : rest.find? Focus.isCode = some rest[k] :=
      List.find?_eq_some_iff_getElem.2 ⟨hcode, k, hlt, rfl, fun i hi ↦ by simpa using hbefore i hi⟩
    rwa [hfind, Option.any_some] at hcolon

theorem plain_braced {d : ItemDraft} (hgroups : d.groups = []) (herrors : d.errors = [])
    (hfirst : Plain first) (h : ∀ q ∈ rest.take d.more, Plain q) : d.Braced (first :: rest) := by
  have hnone : Braces.of ((first :: rest).take (d.more + 1)) = .none := by
    rw [List.take_succ_cons, Braces.of_cons_plain hfirst]
    exact Braces.after_plain _ h
  refine ⟨?_, .inl (by rw [hnone]; rfl)⟩
  rw [hnone, hgroups, herrors]
  exact ⟨rfl, by simp, by simp, by simp [Braces.none]⟩

theorem statement_braced {start : Nat} (hc : Focus.Consecutive start (first :: rest))
    (hfirst : Plain first) (inFunction : Bool) :
    (statement inFunction first rest).Braced (first :: rest) := by
  fun_cases statement inFunction first rest with
  | case1 t colon isLabel k hk hl =>
    simp only [isLabel, Bool.and_eq_true] at hl
    refine plain_braced rfl rfl hfirst fun q hq ↦ ?_
    rcases label_tokens hk hl.2 q hq with hcode | hcolon
    · exact Braces.plain_of_not_isCode hcode
    · exact .of_isPunct hcolon (by decide) (by decide)
  | case2 =>
    exact plain_braced rfl rfl hfirst (caseReach_plain 0 rest rfl (by simp) (Nat.le_refl 0))
  | case3 => exact scan_braced _ _ _ hc rfl (.first hfirst)

/-- Every item takes its brace groups whole. -/
theorem of_braced {start : Nat} (hc : Focus.Consecutive start (first :: rest)) (hfirst : Plain first)
    (inFunction : Bool) : (of inFunction first rest).Braced (first :: rest) := by
  unfold of
  split
  · refine plain_braced rfl rfl hfirst ?_
    dsimp only [plain]
    split
    · have hcode := commentReach_isCode false rest rfl (by simp) (Nat.le_refl 0)
      exact fun q hq ↦ Braces.plain_of_not_isCode (hcode q hq)
    · simp
  · split
    · exact plain_braced rfl rfl hfirst (by simp [plain])
    · exact statement_braced hc hfirst inFunction

theorem classify_mem (t : Token) (rest : List Focus) :
    classify t rest ∈ [NodeKind.typeDefinition, .declaration, .statement] := by
  fun_cases classify t rest <;> simp

theorem statement_kind_mem (inFunction : Bool) (first : Focus) (rest : List Focus) :
    (statement inFunction first rest).kind ∈
      [NodeKind.label, .functionDefinition, .typeDefinition, .declaration, .statement] := by
  fun_cases statement inFunction first rest with
  | case1 => simp
  | case2 => simp [plain]
  | case3 _ _ _ lead _ isControl kind =>
    have hkind : kind ∈ [NodeKind.typeDefinition, .declaration, .statement] := by
      unfold kind
      split
      · simp
      · exact classify_mem _ _
    have hscan := scan_kind ⟨kind, lead, isControl, inFunction, first.index⟩ 0 Progress.start (first :: rest)
    simp only [List.mem_cons, List.not_mem_nil, or_false] at hkind hscan ⊢
    grind

theorem of_kind_ne (inFunction : Bool) (first : Focus) (rest : List Focus) :
    (of inFunction first rest).kind ≠ .braceBlock := by
  unfold of
  split
  · simp [plain]
  · split
    · dsimp only [plain]
      split <;> simp
    · intro he
      have hmem := statement_kind_mem inFunction first rest
      simp [he] at hmem

/-- Only a comment starts a comment block. -/
theorem of_kind_ne_commentBlock (hfirst : first.token.isComment = false) (inFunction : Bool) :
    (of inFunction first rest).kind ≠ .commentBlock := by
  rw [of, if_neg (by simp [hfirst])]
  split
  · dsimp only [plain]
    split <;> simp
  · intro he
    have hmem := statement_kind_mem inFunction first rest
    simp [he] at hmem

end

end ItemDraft

end CodeStyle
