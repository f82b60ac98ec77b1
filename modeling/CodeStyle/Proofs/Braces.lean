import CodeStyle.Proofs.Bounds
import CodeStyle.Proofs.Drafts

/-!
Pairing braces with a stack. What a region pairs does not depend on what stands before it, as long as
it closes nothing but its own braces, and the groups that the readers of items take whole are such
regions.
-/

namespace CodeStyle

theorem Token.isPunct_of_not_isCode {t : Token} (h : t.isCode = false) (text : String) :
    t.isPunct text = false := by
  by_contra hp
  simp only [Bool.not_eq_false, isPunct, Bool.and_eq_true, Bool.or_eq_true, beq_iff_eq] at hp
  rcases hp.1 with hk | hk <;> simp [isCode, Kind.isCode, hk] at h

/-- The braces of some tokens, each closing one paired with the innermost that is open before it. -/
structure Braces where
  pairs : List (Focus × Focus)
  /-- Closing braces that nothing opened. -/
  strays : List Focus
  /-- Opening braces that nothing closed yet, innermost first. -/
  opens : List Focus

namespace Braces

def none : Braces := ⟨[], [], []⟩

def step (b : Braces) (f : Focus) : Braces :=
  if f.token.isPunct "\x7b" then { b with opens := f :: b.opens }
  else if f.token.isPunct "\x7d" then
    match b.opens with
    | [] => { b with strays := b.strays ++ [f] }
    | opening :: outer => { b with pairs := b.pairs ++ [(opening, f)], opens := outer }
  else b

def after (b : Braces) (region : List Focus) : Braces := region.foldl step b

def of (region : List Focus) : Braces := none.after region

/-- The braces of two regions, the second of which closes nothing of the first. -/
def extend (b c : Braces) : Braces := ⟨b.pairs ++ c.pairs, b.strays ++ c.strays, c.opens ++ b.opens⟩

variable {b c : Braces} {f : Focus} {region : List Focus}

theorem after_cons (b : Braces) (f : Focus) (region : List Focus) :
    b.after (f :: region) = (b.step f).after region :=
  rfl

theorem after_append (b : Braces) (front back : List Focus) :
    b.after (front ++ back) = (b.after front).after back :=
  List.foldl_append

@[simp] theorem extend_none (b : Braces) : b.extend none = b := by simp [extend, none]

@[simp] theorem none_extend (b : Braces) : none.extend b = b := by simp [extend, none]

theorem step_opens (hf : f.token.isPunct "\x7b" = true) : b.step f = { b with opens := f :: b.opens } := by
  rw [step, if_pos hf]

theorem step_closes (hf : f.token.isPunct "\x7d" = true) {opening : Focus} {outer : List Focus}
    (hb : b.opens = opening :: outer) :
    b.step f = { b with pairs := b.pairs ++ [(opening, f)], opens := outer } := by
  have hopen : f.token.isPunct "\x7b" = false := Token.isPunct_eq_false hf (by decide)
  simp only [step, hopen, hf, hb, Bool.false_eq_true, if_false, if_true]

theorem step_stray (hf : f.token.isPunct "\x7d" = true) (hb : b.opens = []) :
    b.step f = { b with strays := b.strays ++ [f] } := by
  have hopen : f.token.isPunct "\x7b" = false := Token.isPunct_eq_false hf (by decide)
  simp only [step, hopen, hf, hb, Bool.false_eq_true, if_false, if_true]

/-- Neither of the two braces. -/
def Plain (f : Focus) : Prop := f.token.isPunct "\x7b" = false ∧ f.token.isPunct "\x7d" = false

theorem step_plain (hf : Plain f) : b.step f = b := by
  rw [step, if_neg (by simp [hf.1]), if_neg (by simp [hf.2])]

theorem after_plain (b : Braces) (h : ∀ f ∈ region, Plain f) : b.after region = b := by
  induction region with
  | nil => rfl
  | cons f region ih =>
    rw [after_cons, step_plain (h f (by simp)), ih fun q hq ↦ h q (by simp [hq])]

theorem plain_of_not_isCode (h : f.isCode = false) : Plain f :=
  ⟨Token.isPunct_of_not_isCode h _, Token.isPunct_of_not_isCode h _⟩

/-- A brace behind two regions does what it does behind the second, unless it closes one of the first. -/
theorem step_extend (b c : Braces) (h : f.token.isPunct "\x7d" = true → c.opens ≠ [] ∨ b.opens = []) :
    (b.extend c).step f = b.extend (c.step f) := by
  by_cases hopen : f.token.isPunct "\x7b" = true
  · rw [step_opens hopen, step_opens hopen]
    rfl
  · by_cases hclose : f.token.isPunct "\x7d" = true
    · cases hc : c.opens with
      | nil =>
        have hb : b.opens = [] := (h hclose).resolve_left fun hne ↦ hne hc
        have he : (b.extend c).opens = [] := by simp [extend, hb, hc]
        rw [step_stray hclose he, step_stray hclose hc]
        simp [extend]
      | cons opening outer =>
        have he : (b.extend c).opens = opening :: (outer ++ b.opens) := by simp [extend, hc]
        rw [step_closes hclose he, step_closes hclose hc]
        simp [extend]
    · have hplain : Plain f := ⟨by simpa using hopen, by simpa using hclose⟩
      rw [step_plain hplain, step_plain hplain]

theorem strays_step_ne_nil (h : b.strays ≠ []) : (b.step f).strays ≠ [] := by
  unfold step
  split
  · exact h
  · split
    · split
      · simp
      · exact h
    · exact h

theorem of_snoc (region : List Focus) (f : Focus) : of (region ++ [f]) = (of region).step f :=
  none.after_append region [f]

theorem after_eq_extend (b : Braces) (h : (of region).strays = [] ∨ b.opens = []) :
    b.after region = b.extend (of region) := by
  induction region using List.reverseRecOn with
  | nil => exact (extend_none b).symm
  | append_singleton region f ih =>
    rw [of_snoc] at h
    have hstrays : (of region).strays = [] ∨ b.opens = [] := by
      refine h.imp_left fun hnil ↦ ?_
      by_contra hne
      exact strays_step_ne_nil hne hnil
    have hsnoc : b.after (region ++ [f]) = (b.after region).step f := b.after_append region [f]
    rw [hsnoc, ih hstrays, of_snoc]
    refine step_extend b (of region) fun hclose ↦ ?_
    refine h.imp_left fun hnil hopens ↦ ?_
    rw [step_stray hclose hopens] at hnil
    simp at hnil

theorem of_append {front back : List Focus} (h : (of back).strays = [] ∨ (of front).opens = []) :
    of (front ++ back) = (of front).extend (of back) := by
  rw [of, after_append]
  exact after_eq_extend (of front) h

theorem of_cons_plain (hf : Plain f) (region : List Focus) : of (f :: region) = of region := by
  rw [of, after_cons, step_plain hf]
  rfl

theorem of_cons_stray (hf : f.token.isPunct "\x7d" = true) (region : List Focus) :
    of (f :: region) = (⟨[], [f], []⟩ : Braces).extend (of region) := by
  rw [of, after_cons, step_stray hf rfl]
  exact after_eq_extend _ (.inr rfl)

theorem mem_pairs_step {q : Focus × Focus} (h : q ∈ b.pairs) : q ∈ (b.step f).pairs := by
  unfold step
  split
  · exact h
  · split
    · split
      · exact h
      · exact List.mem_append_left _ h
    · exact h

theorem mem_pairs_after {q : Focus × Focus} (h : q ∈ b.pairs) (region : List Focus) :
    q ∈ (b.after region).pairs := by
  induction region generalizing b with
  | nil => exact h
  | cons f region ih => exact ih (mem_pairs_step h)

/-- Braces that are tokens of a region. -/
structure From (region : List Focus) (b : Braces) : Prop where
  pairs : ∀ opening close, (opening, close) ∈ b.pairs →
    (opening ∈ region ∧ opening.token.isPunct "\x7b" = true) ∧
      close ∈ region ∧ close.token.isPunct "\x7d" = true
  strays : ∀ close ∈ b.strays, close ∈ region ∧ close.token.isPunct "\x7d" = true
  opens : ∀ opening ∈ b.opens, opening ∈ region ∧ opening.token.isPunct "\x7b" = true

theorem From.step (h : b.From region) (hf : f ∈ region) : (b.step f).From region := by
  by_cases hopen : f.token.isPunct "\x7b" = true
  · rw [step_opens hopen]
    exact { h with opens := List.forall_mem_cons.2 ⟨⟨hf, hopen⟩, h.opens⟩ }
  · by_cases hclose : f.token.isPunct "\x7d" = true
    · cases hb : b.opens with
      | nil =>
        rw [step_stray hclose hb]
        exact { h with strays := List.forall_mem_append.2 ⟨h.strays, by simp [hf, hclose]⟩ }
      | cons opening outer =>
        rw [step_closes hclose hb]
        have hopens := h.opens
        rw [hb, List.forall_mem_cons] at hopens
        refine { h with pairs := fun o c hq ↦ ?_, opens := hopens.2 }
        rcases List.mem_append.1 hq with hq | hq
        · exact h.pairs o c hq
        · cases List.mem_singleton.1 hq
          exact ⟨hopens.1, hf, hclose⟩
    · rwa [step_plain ⟨by simpa using hopen, by simpa using hclose⟩]

theorem From.after {whole : List Focus} (h : b.From whole) (hr : ∀ f ∈ region, f ∈ whole) :
    (b.after region).From whole := by
  induction region generalizing b with
  | nil => exact h
  | cons f region ih => exact ih (h.step (hr f (by simp))) fun q hq ↦ hr q (by simp [hq])

theorem of_from (region : List Focus) : (of region).From region := by
  have hnone : none.From region := ⟨by simp [none], by simp [none], by simp [none]⟩
  exact hnone.after fun _ hf ↦ hf

end Braces

open Braces

section

variable {depth n : Nat} {rest : List Focus} {b : Braces}

theorem closing_step {f : Focus} (hf : f.token.isPunct "\x7d" = true) (hb : b.opens.length = depth + 1) :
    (b.step f).opens.length = depth ∧ (b.step f).strays = b.strays := by
  obtain ⟨opening, outer, hopens⟩ := List.exists_cons_of_length_eq_add_one hb
  rw [hopens, List.length_cons] at hb
  rw [step_closes hf hopens]
  exact ⟨Nat.succ.inj hb, rfl⟩

/-- The brace that closes the innermost of `depth + 1` groups comes where the others are closed. -/
theorem closeDistance_some (h : closeDistance depth rest = some n) (hb : b.opens.length = depth) :
    (b.after (rest.take n)).opens = [] ∧ (b.after (rest.take n)).strays = b.strays ∧
      ∃ f, rest[n]? = some f ∧ f.token.isPunct "\x7d" = true := by
  fun_induction closeDistance depth rest generalizing n b with
  | case1 => cases h
  | case2 depth f rest hf ih =>
    obtain ⟨m, hm, rfl⟩ := Option.map_eq_some_iff.1 h
    rw [List.take_succ_cons, after_cons, step_opens hf]
    exact ih hm (by rw [List.length_cons, hb])
  | case3 f rest _ hf =>
    cases h
    exact ⟨List.length_eq_zero_iff.1 hb, rfl, f, rfl, hf⟩
  | case4 f rest _ hf depth ih =>
    obtain ⟨m, hm, rfl⟩ := Option.map_eq_some_iff.1 h
    obtain ⟨hlen, hstep⟩ := closing_step hf hb
    rw [List.take_succ_cons, after_cons, ← hstep]
    exact ih hm hlen
  | case5 depth f rest hopen hclose ih =>
    obtain ⟨m, hm, rfl⟩ := Option.map_eq_some_iff.1 h
    rw [List.take_succ_cons, after_cons, step_plain ⟨by simpa using hopen, by simpa using hclose⟩]
    exact ih hm hb

theorem closeDistance_none (h : closeDistance depth rest = Option.none) (hb : b.opens.length = depth) :
    (b.after rest).strays = b.strays := by
  fun_induction closeDistance depth rest generalizing b with
  | case1 => rfl
  | case2 depth f rest hf ih =>
    rw [Option.map_eq_none_iff] at h
    rw [after_cons, step_opens hf]
    exact ih h (by rw [List.length_cons, hb])
  | case3 => cases h
  | case4 f rest _ hf depth ih =>
    rw [Option.map_eq_none_iff] at h
    obtain ⟨hlen, hstep⟩ := closing_step hf hb
    rw [after_cons, ← hstep]
    exact ih h hlen
  | case5 depth f rest hopen hclose ih =>
    rw [Option.map_eq_none_iff] at h
    rw [after_cons, step_plain ⟨by simpa using hopen, by simpa using hclose⟩]
    exact ih h hb

end

namespace Braces

variable {opening close : Focus} {inner : List Focus}

theorem of_unclosed (hopening : opening.token.isPunct "\x7b" = true) (hs : (of inner).strays = []) :
    of (opening :: inner) = ⟨(of inner).pairs, [], (of inner).opens ++ [opening]⟩ := by
  rw [of, after_cons, step_opens hopening, after_eq_extend _ (.inl hs), extend, hs]
  rfl

theorem of_closed (hopening : opening.token.isPunct "\x7b" = true)
    (hclose : close.token.isPunct "\x7d" = true) (hs : (of inner).strays = [])
    (ho : (of inner).opens = []) :
    of (opening :: (inner ++ [close])) = ⟨(of inner).pairs ++ [(opening, close)], [], []⟩ := by
  have hinner := of_unclosed hopening hs
  rw [ho, List.nil_append] at hinner
  rw [← List.cons_append, of_snoc, hinner, step_closes hclose rfl]

end Braces

/-- A group goes on to the brace that closes it, or to the end of the region if there is none. -/
theorem BraceGroup.of_cases (opening : Focus) (skip : Nat) (inFunction : Bool) (rest : List Focus) :
    (∃ inner close later, rest = inner ++ close :: later ∧ close.token.isPunct "\x7d" = true ∧
      (Braces.of inner).strays = [] ∧ (Braces.of inner).opens = [] ∧
      BraceGroup.of opening skip inFunction rest = ⟨opening, skip, inner.length, true, inFunction⟩) ∨
    ((Braces.of rest).strays = [] ∧
      BraceGroup.of opening skip inFunction rest = ⟨opening, skip, rest.length, false, inFunction⟩) := by
  unfold BraceGroup.of
  cases h : closeDistance 0 rest with
  | none => exact .inr ⟨closeDistance_none (b := Braces.none) h rfl, rfl⟩
  | some n =>
    left
    obtain ⟨hopens, hstrays, close, hget, hclose⟩ := closeDistance_some (b := Braces.none) h rfl
    obtain ⟨hlt, hat⟩ := List.getElem?_eq_some_iff.1 hget
    refine ⟨rest.take n, close, rest.drop (n + 1), ?_, hclose, hstrays, hopens, ?_⟩
    · rw [← hat, List.getElem_cons_drop, List.take_append_drop]
    · rw [List.length_take_of_le (Nat.le_of_lt hlt)]

end CodeStyle
