import CodeStyle.Proofs.Matching
import CodeStyle.Suppression.Directive
import Mathlib.Data.List.TakeWhile

/-!
What the usual syntax reads on one line. A directive opens with its marker, its kind and its filters; what
is left of the line is a reason behind a dash, or only closes the comment. A reason is as short as the
closing of the line allows, and takes the whole rest of the line where nothing closes it.
-/

namespace CodeStyle.DirectiveSyntax

open Pattern Reading

variable {last : Option Char} {cs : List Char} {r : Reading}

def isGap (c : Char) : Bool := c == ' ' || c == '\t'

theorem isGap_iff {c : Char} : isGap c = true ↔ c = ' ' ∨ c = '\t' := by
  rw [isGap, Bool.or_eq_true, beq_iff_eq, beq_iff_eq]

theorem isBlank_of_isGap {c : Char} (hc : isGap c = true) : Text.isBlank c = true := by
  rcases isGap_iff.1 hc with rfl | rfl <;> decide

theorem holds_blank : (CharSet.ofRanges [(' ', ' '), ('\t', '\t')]).holds = isGap := by
  funext c
  simp [CharSet.holds_ofRanges, CharSet.between_self, isGap]

def opening (marker : String) : Pattern :=
  all
    [literal marker, literal ":", group "directive" (any (DirectiveKind.all.map fun k ↦ literal k.word)),
      opt (all [plus blank true, group "rules" filters]) true]

def dash : Pattern := all [plus blank true, literal "-", blanks]

def closing : Pattern := all [blanks, opt (literal "*/") true, blanks, endOfLine]

/-- Whether a rest of a line has only blanks and perhaps the end of the comment. -/
def closes (cs : List Char) : Bool :=
  match cs.dropWhile isGap with
  | [] => true
  | '*' :: '/' :: more => more.all isGap
  | _ => false

/-- What stands before the first place from where the line closes. -/
def reasonOf : List Char → List Char
  | [] => []
  | c :: cs => if closes (c :: cs) then [] else c :: reasonOf cs

def behindHyphen? : List Char → Option (List Char)
  | '-' :: more => some (more.dropWhile isGap)
  | _ => none

/-- What stands behind the dash at the head of a rest of a line. -/
def behindDash? (cs : List Char) : Option (List Char) :=
  if cs.head?.any isGap then behindHyphen? (cs.dropWhile isGap) else none

/-- The groups that a rest of a line adds to a directive, if it ends one. -/
def ending? (cs : List Char) : Option (List (String × List Char)) :=
  match behindDash? cs with
  | some more => some [("reason", reasonOf more)]
  | none => if closes cs then some [] else none

theorem closes_iff :
    closes cs = true ↔
      ∃ a b, (∀ c ∈ a, isGap c = true) ∧ (∀ c ∈ b, isGap c = true) ∧ (cs = a ++ b ∨ cs = a ++ '*' :: '/' :: b) := by
  constructor
  · intro h
    have hsplit := List.takeWhile_append_dropWhile (p := isGap) (l := cs)
    have hgap : ∀ c ∈ cs.takeWhile isGap, isGap c = true := fun c hc ↦ List.mem_takeWhile_imp hc
    unfold closes at h
    split at h
    next hrest =>
      rw [hrest] at hsplit
      exact ⟨_, [], hgap, by simp, .inl hsplit.symm⟩
    next more hrest =>
      rw [hrest] at hsplit
      exact ⟨_, more, hgap, List.all_eq_true.1 h, .inr hsplit.symm⟩
    next => cases h
  · rintro ⟨a, b, ha, hb, rfl | rfl⟩
    · have hnil : (a ++ b).dropWhile isGap = [] :=
        List.dropWhile_eq_nil_iff.2 fun c hc ↦ (List.mem_append.1 hc).elim (ha c) (hb c)
      simp [closes, hnil]
    · have hrest : (a ++ '*' :: '/' :: b).dropWhile isGap = '*' :: '/' :: b := by
        rw [List.dropWhile_append_of_pos ha]
        rfl
      simp [closes, hrest, List.all_eq_true.2 hb]

theorem infix_pair_append {x y : Char} {front back : List Char} (h : [x, y] <:+: front ++ back) :
    [x, y] <:+: front ∨ [x, y] <:+: back ∨ front.getLast? = some x ∧ back.head? = some y := by
  obtain ⟨s, t, h⟩ := h
  rw [List.append_assoc] at h
  rcases List.append_eq_append_iff.1 h with ⟨a, rfl, ha⟩ | ⟨a, rfl, rfl⟩
  · cases a with
    | nil => exact .inr (.inl ⟨[], t, ha⟩)
    | cons c a =>
      obtain ⟨rfl, hrest⟩ := List.cons.inj ha
      cases a with
      | nil =>
        obtain rfl : y :: t = back := hrest
        exact .inr (.inr ⟨by simp, rfl⟩)
      | cons d a =>
        obtain ⟨rfl, -⟩ := List.cons.inj hrest
        exact .inl ⟨s, a, by simp⟩
  · exact .inr (.inl ⟨a, t, by simp⟩)

theorem mem_reads_blanks :
    r ∈ blanks.reads last cs ↔ r.text <+: cs ∧ (∀ c ∈ r.text, isGap c = true) ∧ r.groups = [] := by
  rw [blanks, blank, mem_reads_star_char, holds_blank]

theorem mem_reads_commentEnd :
    r ∈ ((literal "*/").opt true).reads last cs ↔ r = nothing ∨ r = ⟨['*', '/'], []⟩ ∧ ['*', '/'] <+: cs := by
  rw [reads, if_pos rfl, reads_literal, List.mem_append, List.mem_singleton, or_comm]
  have htext : "*/".toList = ['*', '/'] := rfl
  rw [htext, ← List.isPrefixOf_iff_prefix]
  cases ['*', '/'].isPrefixOf cs <;> simp

theorem eq_nil_of_endOfLine (hcs : '\n' ∉ cs) (h : r ∈ endOfLine.reads last cs) : cs = [] ∧ r = nothing := by
  cases cs with
  | nil => exact ⟨rfl, List.mem_singleton.1 h⟩
  | cons c cs =>
    have hc : c ≠ '\n' := fun hc ↦ hcs (hc ▸ List.mem_cons_self)
    simp [reads, hc] at h

theorem mem_reads_closing (hcs : '\n' ∉ cs) : r ∈ closing.reads last cs ↔ r = ⟨cs, []⟩ ∧ closes cs = true := by
  rw [closes_iff]
  constructor
  · intro h
    obtain ⟨⟨a, _⟩, _, x, rfl, ha, hx, rfl⟩ := mem_reads_all_cons.1 h
    obtain ⟨b, _, y, rfl, hb, hy, rfl⟩ := mem_reads_all_cons.1 hx
    obtain ⟨⟨c, _⟩, _, z, rfl, hc, hz, rfl⟩ := mem_reads_all_cons.1 hy
    obtain ⟨d, e, w, rfl, hd, he, rfl⟩ := mem_reads_all_cons.1 hz
    -- Nothing can be left before the end of the line, so the closing part is the whole rest.
    obtain ⟨hnil, rfl⟩ := eq_nil_of_endOfLine (fun h ↦ hcs (by simp [h])) hd
    obtain rfl : w = [] := hnil
    obtain rfl := List.mem_singleton.1 he
    obtain ⟨-, hagap, rfl⟩ := mem_reads_blanks.1 ha
    obtain ⟨-, hcgap, rfl⟩ := mem_reads_blanks.1 hc
    rcases mem_reads_commentEnd.1 hb with rfl | ⟨rfl, -⟩
    · exact ⟨by simp [append, nothing], a, c, hagap, hcgap, .inl (by simp [nothing])⟩
    · exact ⟨by simp [append, nothing], a, c, hagap, hcgap, .inr (by simp [nothing])⟩
  · rintro ⟨rfl, a, b, ha, hb, hcs⟩
    have hend (last : Option Char) : nothing ∈ (all [endOfLine]).reads last [] :=
      mem_reads_all_cons.2 ⟨nothing, nothing, [], rfl, List.mem_singleton_self _, List.mem_singleton_self _, rfl⟩
    have hlast (last : Option Char) : (⟨b, []⟩ : Reading) ∈ (all [blanks, endOfLine]).reads last b :=
      mem_reads_all_cons.2 ⟨⟨b, []⟩, nothing, [], by simp, mem_reads_blanks.2 ⟨List.prefix_rfl, hb, rfl⟩, hend _,
        (append_nothing _).symm⟩
    have hclose (mid : List Char) (hmid : mid = [] ∨ mid = ['*', '/']) (last : Option Char) :
        (⟨mid ++ b, []⟩ : Reading) ∈ (all [(literal "*/").opt true, blanks, endOfLine]).reads last (mid ++ b) :=
      mem_reads_all_cons.2 ⟨⟨mid, []⟩, ⟨b, []⟩, b, rfl, mem_reads_commentEnd.2 (by
        rcases hmid with rfl | rfl
        · exact .inl rfl
        · exact .inr ⟨rfl, List.prefix_append _ _⟩), hlast _, rfl⟩
    have hwhole (mid : List Char) (hmid : mid = [] ∨ mid = ['*', '/']) :
        (⟨a ++ (mid ++ b), []⟩ : Reading) ∈ closing.reads last (a ++ (mid ++ b)) :=
      mem_reads_all_cons.2 ⟨⟨a, []⟩, ⟨mid ++ b, []⟩, mid ++ b, rfl,
        mem_reads_blanks.2 ⟨List.prefix_append _ _, ha, rfl⟩, hclose mid hmid _, rfl⟩
    rcases hcs with rfl | rfl
    · exact hwhole [] (.inl rfl)
    · exact hwhole ['*', '/'] (.inr rfl)

theorem head?_closing (last : Option Char) (hcs : '\n' ∉ cs) :
    (closing.reads last cs).head? = if closes cs then some ⟨cs, []⟩ else none := by
  cases h : closing.reads last cs with
  | nil =>
    have hcloses : closes cs ≠ true := by
      intro hcloses
      have hmem : (⟨cs, []⟩ : Reading) ∈ closing.reads last cs := (mem_reads_closing hcs).2 ⟨rfl, hcloses⟩
      rw [h] at hmem
      cases hmem
    rw [if_neg hcloses]
    rfl
  | cons r rs =>
    obtain ⟨hr, hcloses⟩ := (mem_reads_closing hcs).1 (h ▸ List.mem_cons_self)
    rw [if_pos hcloses, hr]
    rfl

theorem holds_anything {c : Char} (hc : c ≠ '\n') : (⟨[('\n', '\n')], true, false⟩ : CharSet).holds c = true := by
  simpa [CharSet.holds, CharSet.inRanges, CharSet.between_self] using hc

theorem findSome?_anything {α : Type} (last : Option Char) (hcs : '\n' ∉ cs) (f : List Char → α) :
    (anything.reads last cs).findSome? (fun r ↦ if closes (cs.drop r.text.length) then some (f r.text) else none) =
      some (f (reasonOf cs)) := by
  induction cs generalizing last f with
  | nil => rfl
  | cons c cs ih =>
    have hc : c ≠ '\n' := fun hc ↦ hcs (hc ▸ List.mem_cons_self)
    rw [anything, reads_star_cons (holds_anything hc)]
    simp only [Bool.false_eq_true, if_false, findSome?_cons_or, List.findSome?_map, reasonOf]
    -- A lazy repetition stops as soon as what comes after it can be read.
    cases hcloses : closes (c :: cs) with
    | true => simp [nothing, hcloses]
    | false =>
      have h := ih (some c) (fun h ↦ hcs (List.mem_cons_of_mem _ h)) fun w ↦ f (c :: w)
      simp only [nothing, List.length_nil, List.drop_zero, hcloses, Bool.false_eq_true, if_false, Option.none_or]
      exact h

theorem dropWhile_of_head? {p : Char → Bool} (h : ∀ c ∈ cs.head?, p c = false) : cs.dropWhile p = cs := by
  cases cs with
  | nil => rfl
  | cons c cs => rw [List.dropWhile_cons_of_neg (by simp [h c rfl])]

theorem drop_length_takeWhile (p : Char → Bool) (cs : List Char) :
    cs.drop (cs.takeWhile p).length = cs.dropWhile p := by
  have h : (cs.takeWhile p ++ cs.dropWhile p).drop (cs.takeWhile p).length = cs.dropWhile p := List.drop_left
  rwa [List.takeWhile_append_dropWhile] at h

theorem head?_hyphen (last : Option Char) (cs : List Char) :
    ((all [literal "-", blanks]).reads last cs).head?.map (fun r ↦ cs.drop r.text.length) = behindHyphen? cs := by
  have hseq : (all [literal "-", blanks]).reads last cs =
      andThen ((literal "-").reads last cs) (all [blanks]).reads last cs := rfl
  rw [hseq, reads_literal]
  split
  next h =>
    obtain ⟨more, rfl⟩ := List.isPrefixOf_iff_prefix.1 h
    rw [andThen_singleton, reads_all_singleton, List.drop_left, blanks, blank, List.head?_map, head?_reads_star_char,
      holds_blank, Option.map_some, Option.map_some, append, List.length_append, List.drop_length_add_append,
      drop_length_takeWhile]
    rfl
  next h =>
    unfold behindHyphen?
    split
    next more => exact absurd rfl h
    next => rfl

theorem head?_dash (last : Option Char) (cs : List Char) :
    (dash.reads last cs).head?.map (fun d ↦ cs.drop d.text.length) = behindDash? cs := by
  have hdash : dash.reads last cs =
      andThen ((plus blank true).reads last cs) (all [literal "-", blanks]).reads last cs := rfl
  have hplus : (dash.reads last cs).head?.map (fun d ↦ cs.drop d.text.length) =
      ((plus blank true).reads last cs).findSome? fun a ↦ behindHyphen? (cs.drop a.text.length) := by
    rw [hdash, head?_andThen, List.map_findSome?]
    apply findSome?_congr
    intro a _
    rw [← head?_hyphen (a.lastOf last), Function.comp_apply, Option.map_map]
    congr 1
    funext b
    simp [append]
  rw [hplus, reads_plus, findSome?_andThen]
  cases cs with
  | nil => rfl
  | cons c cs =>
    have hblank : blank.reads last (c :: cs) = if isGap c then [⟨[c], []⟩] else [] := by
      rw [blank, reads, holds_blank]
    rw [hblank]
    cases hc : isGap c with
    | false => simp [behindDash?, hc]
    | true =>
      simp only [if_true, findSome?_cons_or, List.findSome?_nil, Option.or_none, append, List.length_append,
        List.length_singleton, Nat.add_comm 1, List.drop_succ_cons, List.drop_zero]
      rw [blank, findSome?_reads_star_char, holds_blank, drop_length_takeWhile]
      · simp [behindDash?, hc]
      · -- A blank behind the reading is no hyphen.
        intro w d more hcs hd
        rw [holds_blank] at hd
        rw [hcs, List.drop_left]
        unfold behindHyphen?
        split
        next h =>
          obtain ⟨rfl, -⟩ := List.cons.inj h
          cases hd
        next => rfl

theorem groups_eq_nil {p : Pattern} (hp : p.groupNames = []) (h : r ∈ p.reads last cs) : r.groups = [] :=
  List.eq_nil_iff_forall_not_mem.2 fun g hg ↦ by simpa [hp] using (fits h).named g hg

theorem head?_reason (last : Option Char) (hcs : '\n' ∉ cs) :
    (andThen ((group "reason" anything).reads last cs) closing.reads last cs).head? =
      some ⟨cs, [("reason", reasonOf cs)]⟩ := by
  rw [head?_andThen, reads, List.findSome?_map,
    ← findSome?_anything last hcs fun w ↦ (⟨cs, [("reason", w)]⟩ : Reading)]
  apply findSome?_congr
  intro a ha
  obtain ⟨more, rfl⟩ := (fits ha).ahead
  have hmore : '\n' ∉ more := fun h ↦ hcs (List.mem_append_right _ h)
  rw [Function.comp_apply, List.drop_left, head?_closing _ hmore, groups_eq_nil rfl ha]
  cases closes more <;> rfl

theorem head?_withReason (last : Option Char) (hcs : '\n' ∉ cs) :
    (andThen ((all ([plus blank true, literal "-", blanks] ++ [group "reason" anything])).reads last cs) closing.reads
      last cs).head? = (behindDash? cs).map fun more ↦ ⟨cs, [("reason", reasonOf more)]⟩ := by
  rw [reads_all_append, ← dash, andThen_assoc, head?_andThen, ← head?_dash last, Option.map_map, ← findSome?_some]
  apply findSome?_congr
  intro d hd
  obtain ⟨more, rfl⟩ := (fits hd).ahead
  have hmore : '\n' ∉ more := fun h ↦ hcs (List.mem_append_right _ h)
  rw [Function.comp_apply, List.drop_left, reads_all_singleton, head?_reason _ hmore, Option.map_some, append,
    groups_eq_nil rfl hd]
  rfl

theorem reads_directivePattern_of_not_prefix {marker : String} (h : ¬ marker.toList <+: cs) :
    (directivePattern marker).reads last cs = [] := by
  have hseq : ∃ rest, (directivePattern marker).reads last cs =
      andThen ((literal marker).reads last cs) rest last cs := ⟨_, rfl⟩
  obtain ⟨rest, hseq⟩ := hseq
  rw [hseq, reads_literal, if_neg (mt List.isPrefixOf_iff_prefix.1 h)]
  rfl

/-- What the pattern of a directive reads first on a line of its own: the whole line, by the first opening
whose rest ends a directive. -/
theorem head?_directivePattern (marker : String) (last : Option Char) (hcs : '\n' ∉ cs) :
    ((directivePattern marker).reads last cs).head? =
      ((opening marker).reads last cs).findSome? fun h ↦
        (ending? (cs.drop h.text.length)).map fun groups ↦ ⟨cs, groups ++ h.groups⟩ := by
  have hparts : directivePattern marker =
      all ([literal marker, literal ":", group "directive" (any (DirectiveKind.all.map fun k ↦ literal k.word)),
        opt (all [plus blank true, group "rules" filters]) true] ++
        [opt (all ([plus blank true, literal "-", blanks] ++ [group "reason" anything])) true,
          blanks, opt (literal "*/") true, blanks, endOfLine]) := rfl
  have htail (last : Option Char) (cs : List Char) :
      (all [opt (all ([plus blank true, literal "-", blanks] ++ [group "reason" anything])) true,
        blanks, opt (literal "*/") true, blanks, endOfLine]).reads last cs =
      andThen ((all ([plus blank true, literal "-", blanks] ++ [group "reason" anything])).reads last cs ++ [nothing])
        closing.reads last cs := rfl
  rw [hparts, reads_all_append, ← opening, head?_andThen]
  apply findSome?_congr
  intro h hh
  obtain ⟨rest, rfl⟩ := (fits hh).ahead
  have hrest : '\n' ∉ rest := fun h ↦ hcs (List.mem_append_right _ h)
  rw [List.drop_left, htail, andThen, List.flatMap_append, ← andThen, ← andThen, List.head?_append, andThen_nothing,
    head?_withReason _ hrest, head?_closing _ hrest, ending?]
  cases behindDash? rest with
  | some more => rfl
  | none => cases closes rest <;> rfl

theorem stops_standard : standard.pattern.stops '\n' = true := by decide

theorem solid_standard : standard.pattern.solid = true := by decide

theorem scan_standard_of_ne {c : Char} (hc : c ≠ 'c') (start : Nat) (cs : List Char) :
    standard.pattern.scan start (c :: cs) = standard.pattern.scan (start + 1) cs := by
  apply scan_cons_of_none
  apply reads_directivePattern_of_not_prefix
  intro h
  exact hc (List.cons_prefix_cons.1 h).1.symm

def content (d : Directive) : DirectiveKind × List String × Option String := (d.kind, d.filters, d.reason)

/-- What a match asks for, by its groups. -/
def request? (m : Match) : Option (DirectiveKind × List String × Option String) :=
  ((m.group? "directive").bind DirectiveKind.ofWord?).map fun kind ↦
    (kind, ((m.group? "rules").map splitFilters).getD [], ((m.group? "reason").map Text.trim).filter (!·.isEmpty))

theorem content_directive? (source : Source) (comment : Focus) (m : Match) :
    (directive? source comment m).map content = request? m := by
  rw [directive?, Option.map_map]
  rfl

end CodeStyle.DirectiveSyntax
