import CodeStyle.Proofs.DirectiveLines
import Mathlib.Data.List.Forall2

/-!
Directives before carriage returns. The usual syntax takes a carriage return for a part of its line, and a
directive that gives no reason has to be the last thing on its line. Where each line of a text gets a carriage
return at its end, such a directive is therefore found on the last line only; a directive that gives a reason is
found as before, for the return is a blank at the end of the reason.
-/

namespace CodeStyle

open Text

namespace Text

section Returns

variable {α β : Type} [DecidableEq α] [DecidableEq β] {cr lf : α}

/-- A text with `cr` before each `lf`. -/
def withReturns (cr lf : α) (xs : List α) : List α := xs.flatMap fun x ↦ if x = lf then [cr, lf] else [x]

theorem withReturns_append (front back : List α) :
    withReturns cr lf (front ++ back) = withReturns cr lf front ++ withReturns cr lf back :=
  List.flatMap_append

theorem withReturns_break (xs : List α) : withReturns cr lf (lf :: xs) = cr :: lf :: withReturns cr lf xs := by
  rw [withReturns, List.flatMap_cons, if_pos rfl]
  rfl

theorem withReturns_eq_self {xs : List α} (h : lf ∉ xs) : withReturns cr lf xs = xs := by
  have hplain : ∀ x ∈ xs, (if x = lf then [cr, lf] else [x]) = [x] := by
    intro x hx
    rw [if_neg]
    rintro rfl
    exact h hx
  rw [withReturns, List.flatMap_congr hplain, List.flatMap_singleton']

theorem withReturns_line {line : List α} (h : lf ∉ line) (rest : List α) :
    withReturns cr lf (line ++ lf :: rest) = (line ++ [cr]) ++ lf :: withReturns cr lf rest := by
  rw [withReturns_append, withReturns_eq_self h, withReturns_break, List.append_assoc, List.singleton_append]

theorem map_withReturns {f : α → β} (hf : ∀ x, f x = f lf ↔ x = lf) (xs : List α) :
    (withReturns cr lf xs).map f = withReturns (f cr) (f lf) (xs.map f) := by
  rw [withReturns, withReturns, List.map_flatMap, List.flatMap_map]
  apply List.flatMap_congr
  intro x _
  by_cases hx : x = lf
  · rw [if_pos hx, if_pos ((hf x).2 hx), List.map_cons, List.map_singleton]
  · rw [if_neg hx, if_neg (mt (hf x).1 hx), List.map_singleton]

theorem take_withReturns (xs : List α) (n : Nat) :
    (withReturns cr lf xs).take (withReturns cr lf (xs.take n)).length = withReturns cr lf (xs.take n) := by
  conv_lhs => rw [← List.take_append_drop n xs, withReturns_append]
  rw [List.take_append_drop, List.take_left]

end Returns

end Text

namespace DirectiveSyntax

open Pattern Reading

section Line

variable {cs : List Char}

theorem mem_of_closes (h : closes cs = true) : ∀ c ∈ cs, isGap c = true ∨ c = '*' ∨ c = '/' := by
  intro c hc
  obtain ⟨a, b, ha, hb, rfl | rfl⟩ := closes_iff.1 h
  · exact .inl ((List.mem_append.1 hc).elim (ha c) (hb c))
  · simp only [List.mem_append, List.mem_cons] at hc
    rcases hc with hc | rfl | rfl | hc
    · exact .inl (ha c hc)
    · exact .inr (.inl rfl)
    · exact .inr (.inr rfl)
    · exact .inl (hb c hc)

theorem closes_return (cs : List Char) : closes (cs ++ ['\r']) = false := by
  by_contra h
  have hmem := mem_of_closes (Bool.not_eq_false _ ▸ h) '\r' (by simp)
  exact absurd hmem (by decide)

theorem reasonOf_return (cs : List Char) : reasonOf (cs ++ ['\r']) = cs ++ ['\r'] := by
  induction cs with
  | nil => rfl
  | cons c cs ih =>
    have hopen := closes_return (c :: cs)
    rw [List.cons_append] at hopen ⊢
    rw [reasonOf, hopen, if_neg Bool.false_ne_true, ih]

theorem dropWhile_return (cs : List Char) : (cs ++ ['\r']).dropWhile isGap = cs.dropWhile isGap ++ ['\r'] := by
  rw [List.dropWhile_append]
  split
  next h => rw [List.isEmpty_iff.1 h]; rfl
  next => rfl

theorem behindHyphen?_return (cs : List Char) :
    behindHyphen? (cs ++ ['\r']) = (behindHyphen? cs).map (· ++ ['\r']) := by
  unfold behindHyphen?
  split
  next more h =>
    cases cs with
    | nil => cases h
    | cons c cs =>
      obtain ⟨rfl, rfl⟩ := List.cons.inj h
      simp [dropWhile_return]
  next h =>
    split
    next more => exact absurd rfl (h (more ++ ['\r']))
    next => rfl

theorem behindDash?_return (cs : List Char) : behindDash? (cs ++ ['\r']) = (behindDash? cs).map (· ++ ['\r']) := by
  have hhead : (cs ++ ['\r']).head?.any isGap = cs.head?.any isGap := by
    cases cs <;> rfl
  rw [behindDash?, behindDash?, hhead, dropWhile_return, behindHyphen?_return]
  split <;> rfl

theorem behindDash?_eq_none (h : ending? cs = none) : behindDash? cs = none := by
  unfold ending? at h
  split at h
  next => cases h
  next hdash => exact hdash

theorem ending?_return (cs : List Char) :
    ending? (cs ++ ['\r']) = (behindDash? cs).map fun more ↦ [("reason", more ++ ['\r'])] := by
  rw [ending?, behindDash?_return, closes_return]
  cases behindDash? cs with
  | none => rfl
  | some more => exact congrArg (fun w ↦ some [("reason", w)]) (reasonOf_return more)

/-- Whether a dash, with a blank before it, stands somewhere. -/
def HasDash (cs : List Char) : Prop := ∃ x, isGap x = true ∧ [x, '-'] <:+: cs

theorem split_of_behindDash? {more : List Char} (h : behindDash? cs = some more) :
    ∃ front x gap, isGap x = true ∧ cs = front ++ ([x, '-'] ++ (gap ++ more)) := by
  unfold behindDash? at h
  split at h
  next hhead =>
    unfold behindHyphen? at h
    split at h
    next rest hrest =>
      obtain rfl := Option.some.inj h
      have hsplit := List.takeWhile_append_dropWhile (p := isGap) (l := cs)
      rw [hrest] at hsplit
      have hne : cs.takeWhile isGap ≠ [] := by
        cases cs with
        | nil => cases hhead
        | cons c cs =>
          have hc : isGap c = true := hhead
          rw [List.takeWhile_cons_of_pos hc]
          exact List.cons_ne_nil _ _
      refine ⟨(cs.takeWhile isGap).dropLast, (cs.takeWhile isGap).getLast hne, rest.takeWhile isGap,
        List.mem_takeWhile_imp (List.getLast_mem hne), ?_⟩
      rw [List.takeWhile_append_dropWhile, List.cons_append, List.singleton_append, List.append_cons,
        List.dropLast_append_getLast hne, hsplit]
    next => cases h
  next => cases h

variable {last : Option Char} {r : Reading}

theorem not_hasDash_opening (h : r ∈ (opening defaultMarker).reads last cs) : ¬ HasDash r.text := by
  rintro ⟨x, hx, hdash⟩
  -- What comes before the filters has no blank, and the filters have no hyphen.
  let front : List Pattern :=
    [literal defaultMarker, literal ":", group "directive" (any (DirectiveKind.all.map fun k ↦ literal k.word))]
  let back : List Pattern := [opt (all [plus blank true, group "rules" filters]) true]
  have hparts : opening defaultMarker = all (front ++ back) := rfl
  rw [hparts, reads_all_append] at h
  obtain ⟨a, ha, b, hb, rfl⟩ := mem_andThen.1 h
  have hblank : x ∉ a.text := by
    intro hmem
    have hstops : (all front).stops x = true := by
      rcases isGap_iff.1 hx with rfl | rfl <;> decide
    exact absurd hstops (Bool.eq_false_iff.1 ((fits ha).taken x hmem))
  have hhyphen : '-' ∉ b.text := by
    intro hmem
    have hstops : (all back).stops '-' = true := by decide
    exact absurd hstops (Bool.eq_false_iff.1 ((fits hb).taken '-' hmem))
  rcases infix_pair_append hdash with hdash | hdash | ⟨hdash, -⟩
  · exact hblank (hdash.subset (by simp))
  · exact hhyphen (hdash.subset (by simp))
  · exact hblank (List.mem_of_getLast? hdash)

theorem not_hasDash_of_closes {front rest : List Char} (hfront : ¬ HasDash front) (h : closes rest = true) :
    ¬ HasDash (front ++ rest) := by
  rintro ⟨x, hx, hdash⟩
  have hrest : '-' ∉ rest := fun hmem ↦ absurd (mem_of_closes h _ hmem) (by decide)
  rcases infix_pair_append hdash with hdash | hdash | ⟨-, hdash⟩
  · exact hfront ⟨x, hx, hdash⟩
  · exact hrest (hdash.subset (by simp))
  · exact hrest (List.mem_of_mem_head? hdash)

theorem head?_return (last : Option Char) (hcs : '\n' ∉ cs) :
    (standard.pattern.reads last (cs ++ ['\r'])).head? =
      ((opening defaultMarker).reads last cs).findSome? fun h ↦
        (behindDash? (cs.drop h.text.length)).map fun more ↦
          ⟨cs ++ ['\r'], ("reason", more ++ ['\r']) :: h.groups⟩ := by
  have hstops : (opening defaultMarker).stops '\r' = true := by decide
  have hreads : (opening defaultMarker).reads last (cs ++ ['\r']) = (opening defaultMarker).reads last cs :=
    reads_append hstops last last cs []
  rw [standard, head?_directivePattern _ _ (by simpa using hcs), hreads]
  apply findSome?_congr
  intro h hh
  rw [List.drop_append_of_le_length (fits hh).ahead.length_le, ending?_return, Option.map_map]
  rfl

theorem head?_return_eq_none (last : Option Char) (hcs : '\n' ∉ cs) (h : ¬ HasDash cs) :
    (standard.pattern.reads last (cs ++ ['\r'])).head? = none := by
  rw [head?_return last hcs, List.findSome?_eq_none_iff]
  intro r hr
  cases hdash : behindDash? (cs.drop r.text.length) with
  | none => rfl
  | some more =>
    obtain ⟨front, x, gap, hx, hsplit⟩ := split_of_behindDash? hdash
    have hpair : [x, '-'] <:+: cs.drop r.text.length := ⟨front, gap ++ more, by rw [hsplit, List.append_assoc]⟩
    exact absurd ⟨x, hx, hpair.trans (List.drop_suffix _ _).isInfix⟩ h

theorem head?_return_of_none (hcs : '\n' ∉ cs) (h : (standard.pattern.reads last cs).head? = none) :
    (standard.pattern.reads last (cs ++ ['\r'])).head? = none := by
  rw [standard, head?_directivePattern _ _ hcs, List.findSome?_eq_none_iff] at h
  rw [head?_return last hcs, List.findSome?_eq_none_iff]
  intro o ho
  rw [behindDash?_eq_none (Option.map_eq_none_iff.1 (h o ho))]
  rfl

/-- A directive that gives a reason is also read before a carriage return, which then belongs to the reason; on
the line of a directive without one nothing is. -/
theorem return_of_head? (hcs : '\n' ∉ cs) (h : (standard.pattern.reads last cs).head? = some r) :
    r.text = cs ∧
      ((∃ groups more, r.groups = ("reason", reasonOf more) :: groups ∧ more <:+ cs ∧
          (standard.pattern.reads last (cs ++ ['\r'])).head? =
            some ⟨cs ++ ['\r'], ("reason", more ++ ['\r']) :: groups⟩) ∨
        (∀ g ∈ r.groups, g.1 ≠ "reason") ∧ ¬ HasDash cs) := by
  rw [standard, head?_directivePattern _ _ hcs] at h
  obtain ⟨skipped, o, rest, hreads, ho, hskipped⟩ := List.findSome?_eq_some_iff.1 h
  have hmem : o ∈ (opening defaultMarker).reads last cs := by simp [hreads]
  obtain ⟨groups, hgroups, rfl⟩ := Option.map_eq_some_iff.1 ho
  refine ⟨rfl, ?_⟩
  unfold ending? at hgroups
  split at hgroups
  next more hmore =>
    obtain rfl := Option.some.inj hgroups
    obtain ⟨front, x, gap, -, hsplit⟩ := split_of_behindDash? hmore
    have hsuffix : more <:+ cs.drop o.text.length := ⟨front ++ ([x, '-'] ++ gap), by simp [hsplit]⟩
    refine .inl ⟨o.groups, more, rfl, hsuffix.trans (List.drop_suffix _ _), ?_⟩
    rw [head?_return last hcs, List.findSome?_eq_some_iff]
    refine ⟨skipped, o, rest, hreads, by rw [hmore]; rfl, ?_⟩
    intro s hs
    rw [behindDash?_eq_none (Option.map_eq_none_iff.1 (hskipped s hs))]
    rfl
  next hdash =>
    split at hgroups
    next hcloses =>
      obtain rfl := Option.some.inj hgroups
      refine .inr ⟨?_, ?_⟩
      · intro g hg hreason
        have hnamed := (fits hmem).named g hg
        rw [hreason] at hnamed
        exact absurd hnamed (by decide)
      · obtain ⟨tail, rfl⟩ := (fits hmem).ahead
        rw [List.drop_left] at hcloses
        exact not_hasDash_of_closes (not_hasDash_opening hmem) hcloses
    next => cases hgroups

theorem trim_append_blank {b : List Char} (cs : List Char) (hb : ∀ c ∈ b, isBlank c = true) :
    trim (String.ofList (cs ++ b)) = trim (String.ofList cs) := by
  have hend (cs : List Char) : trimEnd (cs ++ b) = trimEnd cs := by
    rw [trimEnd, List.reverse_append, List.dropWhile_append_of_pos (fun c hc ↦ hb c (List.mem_reverse.1 hc)), trimEnd]
  rw [trim, trim, String.toList_ofList, String.toList_ofList, trimStart, trimStart, List.dropWhile_append]
  split
  next hempty => rw [List.isEmpty_iff.1 hempty, List.dropWhile_eq_nil_iff.2 hb]
  next => rw [hend]

theorem closes_behind_reasonOf (cs : List Char) : ∃ b, cs = reasonOf cs ++ b ∧ closes b = true := by
  induction cs with
  | nil => exact ⟨[], rfl, rfl⟩
  | cons c cs ih =>
    rw [reasonOf]
    split
    next hcloses => exact ⟨c :: cs, rfl, hcloses⟩
    next =>
      obtain ⟨b, hb, hcloses⟩ := ih
      exact ⟨b, congrArg (c :: ·) hb, hcloses⟩

theorem trim_reasonOf (h : ¬ ['*', '/'] <:+: cs) :
    trim (String.ofList (cs ++ ['\r'])) = trim (String.ofList (reasonOf cs)) := by
  obtain ⟨b, hb, hcloses⟩ := closes_behind_reasonOf cs
  obtain ⟨front, back, hfront, hback, hsplit | hsplit⟩ := closes_iff.1 hcloses
  · -- What the reason leaves is trimmed away, and so is the carriage return.
    have hall : ∀ c ∈ b ++ ['\r'], isBlank c = true := by
      intro c hc
      rw [hsplit, List.mem_append, List.mem_append, List.mem_singleton] at hc
      rcases hc with (hc | hc) | rfl
      · exact isBlank_of_isGap (hfront c hc)
      · exact isBlank_of_isGap (hback c hc)
      · decide
    rw [← trim_append_blank (reasonOf cs) hall, ← List.append_assoc, ← hb]
  · have hwhole : reasonOf cs ++ front ++ ['*', '/'] ++ back = reasonOf cs ++ b := by simp [hsplit]
    exact absurd ⟨reasonOf cs ++ front, back, hwhole.trans hb.symm⟩ h

theorem request?_return {groups : List (String × List Char)} {start start' : Nat} {text text' : List Char}
    (h : ¬ ['*', '/'] <:+: cs) :
    request? ⟨start', text', ("reason", cs ++ ['\r']) :: groups⟩ =
      request? ⟨start, text, ("reason", reasonOf cs) :: groups⟩ := by
  have hother (name : String) (hname : "reason" ≠ name) (start : Nat) (text reason : List Char) :
      (⟨start, text, ("reason", reason) :: groups⟩ : Match).group? name = (⟨0, [], groups⟩ : Match).group? name := by
    rw [Match.group?, List.find?_cons_of_neg (by simpa using hname), Match.group?]
  have hreason (start : Nat) (text reason : List Char) :
      (⟨start, text, ("reason", reason) :: groups⟩ : Match).group? "reason" = some (String.ofList reason) := rfl
  have hkind := hother "directive" (by decide)
  have hrules := hother "rules" (by decide)
  rw [request?, hkind, hrules, hreason, Option.map_some, trim_reasonOf h, request?, hkind, hrules, hreason,
    Option.map_some]

end Line

/-- The matches `m` and `m'` ask for the same, at the same place of lines that start at different places. -/
def Moved (start start' width : Nat) (m m' : Match) : Prop :=
  request? m' = request? m ∧ ∃ k ≤ width, m.start = start + k ∧ m'.start = start' + k

theorem Moved.ahead {start start' width width' n : Nat} {m m' : Match} (h : Moved (start + n) (start' + n) width m m')
    (hle : n + width ≤ width') : Moved start start' width' m m' := by
  obtain ⟨hrequest, k, hk, hstart, hstart'⟩ := h
  exact ⟨hrequest, n + k, by omega, by omega, by omega⟩

theorem scan_moved (p : Pattern) (start start' : Nat) (cs : List Char) :
    List.Forall₂ (Moved start start' cs.length) (p.scan start cs) (p.scan start' cs) := by
  fun_induction scan p start cs generalizing start' with
  | case1 => rw [scan]; exact .nil
  | case2 start c cs hnone ih =>
    rw [scan_cons_of_none (List.head?_eq_none_iff.1 hnone)]
    exact (ih (start' + 1)).imp fun m m' h ↦ h.ahead (by rw [List.length_cons]; omega)
  | case3 start c cs r hr ih =>
    have hle : r.text.length ≤ (c :: cs).length := (fits (List.mem_of_mem_head? hr)).ahead.length_le
    rw [List.length_cons] at hle
    rw [scan, hr]
    refine .cons ⟨rfl, 0, Nat.zero_le _, rfl, rfl⟩ ((ih (start' + r.text.length)).imp fun m m' h ↦ h.ahead ?_)
    rw [List.length_cons, List.length_drop]
    omega

/-- Whether a match in a text of `n` characters gives a reason or ends the text. -/
def isKept (n : Nat) (m : Match) : Bool := (m.group? "reason").isSome || m.stop == n

theorem scan_return_of_not_hasDash (start : Nat) {line : List Char} (hline : '\n' ∉ line) (h : ¬ HasDash line) :
    standard.pattern.scan start (line ++ ['\r']) = [] := by
  induction line generalizing start with
  | nil => rw [List.nil_append, scan_standard_of_ne (by decide), scan]
  | cons c line ih =>
    have hnone := List.head?_eq_none_iff.1 (head?_return_eq_none none hline h)
    rw [List.cons_append] at hnone ⊢
    rw [scan_cons_of_none hnone]
    refine ih _ (mt (List.mem_cons_of_mem c) hline) ?_
    rintro ⟨x, hx, hdash⟩
    exact h ⟨x, hx, hdash.trans (List.suffix_cons c line).isInfix⟩

theorem scan_return (start start' : Nat) {line : List Char} (hline : '\n' ∉ line) (hclose : ¬ ['*', '/'] <:+: line) :
    List.Forall₂ (Moved start start' line.length)
      ((standard.pattern.scan start line).filter fun m ↦ (m.group? "reason").isSome)
      (standard.pattern.scan start' (line ++ ['\r'])) := by
  induction line generalizing start start' with
  | nil =>
    rw [List.nil_append, scan_standard_of_ne (by decide), scan, scan]
    exact .nil
  | cons c line ih =>
    cases hr : (standard.pattern.reads none (c :: line)).head? with
    | none =>
      have hreturn := List.head?_eq_none_iff.1 (head?_return_of_none hline hr)
      rw [List.cons_append] at hreturn ⊢
      rw [scan_cons_of_none (List.head?_eq_none_iff.1 hr), scan_cons_of_none hreturn]
      have hmoved := ih (start + 1) (start' + 1) (mt (List.mem_cons_of_mem c) hline)
        fun h ↦ hclose (h.trans (List.suffix_cons c line).isInfix)
      exact hmoved.imp fun m m' h ↦ h.ahead (by rw [List.length_cons]; omega)
    | some r =>
      obtain ⟨htext, hcases⟩ := return_of_head? hline hr
      rw [scan_of_head? solid_standard hr, htext, List.drop_length, scan]
      rcases hcases with ⟨groups, more, hgroups, hsuffix, hreturn⟩ | ⟨hnone, hdash⟩
      · rw [scan_of_head? solid_standard hreturn, List.drop_length, scan, hgroups, List.filter_cons_of_pos rfl]
        have hmore : ¬ ['*', '/'] <:+: more := fun h ↦ hclose (h.trans hsuffix.isInfix)
        exact .cons ⟨request?_return hmore, 0, Nat.zero_le _, rfl, rfl⟩ .nil
      · -- The line has no dash, so no later place of it starts a directive before the return either.
        have hfind : r.groups.find? (·.1 == "reason") = none :=
          List.find?_eq_none.2 fun g hg ↦ by simpa using hnone g hg
        rw [scan_return_of_not_hasDash start' hline hdash, List.filter_cons_of_neg (by simp [Match.group?, hfind])]
        exact .nil

theorem stop_of_mem_scan {start : Nat} {line : List Char} {m : Match} (hline : '\n' ∉ line)
    (h : m ∈ standard.pattern.scan start line) : m.stop = start + line.length := by
  induction line generalizing start with
  | nil => rw [scan] at h; cases h
  | cons c line ih =>
    cases hr : (standard.pattern.reads none (c :: line)).head? with
    | none =>
      rw [scan_cons_of_none (List.head?_eq_none_iff.1 hr)] at h
      rw [ih (mt (List.mem_cons_of_mem c) hline) h, List.length_cons]
      omega
    | some r =>
      obtain ⟨htext, -⟩ := return_of_head? hline hr
      rw [scan_of_head? solid_standard hr, htext, List.drop_length, scan] at h
      rw [List.mem_singleton.1 h]
      rfl

/-- The match `m'` asks for the same as `m`, at the place that `m` has in `text` once returns are put in. -/
def Returned (text : List Char) (m m' : Match) : Prop :=
  request? m' = request? m ∧ m'.start = (withReturns '\r' '\n' (text.take m.start)).length

theorem Moved.returned {before part : List Char} (hpart : '\n' ∉ part) (back : List Char) {m m' : Match}
    (h : Moved before.length (withReturns '\r' '\n' before).length part.length m m') :
    Returned (before ++ (part ++ back)) m m' := by
  obtain ⟨hrequest, k, hk, hstart, hstart'⟩ := h
  refine ⟨hrequest, ?_⟩
  rw [hstart, List.take_length_add_append, List.take_append_of_le_length hk, withReturns_append, List.length_append,
    withReturns_eq_self (fun h ↦ hpart (List.mem_of_mem_take h)), List.length_take_of_le hk, hstart']

/-- In a comment that is not closed before its last line, line endings take away the directives that give no reason and
do not end the comment. -/
theorem scan_crlf (before cs : List Char) (hclose : ∀ a b, cs = a ++ '*' :: '/' :: b → '\n' ∉ b) :
    List.Forall₂ (Returned (before ++ cs))
      ((standard.pattern.scan before.length cs).filter (isKept (before ++ cs).length))
      (standard.pattern.scan (withReturns '\r' '\n' before).length (withReturns '\r' '\n' cs)) := by
  by_cases hcs : '\n' ∈ cs
  · obtain ⟨line, rest, rfl, hline⟩ := List.eq_append_cons_of_mem hcs
    have hopen : ¬ ['*', '/'] <:+: line := by
      rintro ⟨a, b, rfl⟩
      exact hclose a (b ++ '\n' :: rest) (by simp) (by simp)
    have hrest : ∀ a b, rest = a ++ '*' :: '/' :: b → '\n' ∉ b := by
      rintro a b rfl
      exact hclose (line ++ '\n' :: a) b (by simp)
    have ih := scan_crlf (before ++ (line ++ ['\n'])) rest hrest
    -- A match on this line does not end the text, so it is kept for its reason only.
    have hkept : ∀ m ∈ standard.pattern.scan before.length line,
        isKept (before ++ (line ++ '\n' :: rest)).length m = (m.group? "reason").isSome := by
      intro m hm
      have hle := stop_le_of_mem_scan hm
      have hlt : m.stop ≠ (before ++ (line ++ '\n' :: rest)).length := by
        simp only [List.length_append, List.length_cons]
        omega
      rw [isKept, beq_eq_false_iff_ne.2 hlt, Bool.or_false]
    rw [withReturns_line hline, scan_line stops_standard solid_standard, scan_line stops_standard solid_standard,
      List.filter_append, List.filter_congr hkept]
    refine List.rel_append ((scan_return _ _ hline hopen).imp fun m m' h ↦ h.returned hline _) ?_
    have hnil : withReturns '\r' '\n' [] = [] := rfl
    rw [withReturns_append, withReturns_line hline, hnil] at ih
    simpa [Nat.add_assoc] using ih
  · -- On the last line every directive reaches the end of the text.
    have hkept : ∀ m ∈ standard.pattern.scan before.length cs, isKept (before ++ cs).length m = true := by
      intro m hm
      rw [isKept, stop_of_mem_scan hcs hm, List.length_append, beq_self_eq_true, Bool.or_true]
    rw [withReturns_eq_self hcs, List.filter_eq_self.2 hkept]
    refine (scan_moved _ _ _ cs).imp fun m m' h ↦ ?_
    have hreturned := h.returned hcs []
    rwa [List.append_nil] at hreturned
termination_by cs.length

end DirectiveSyntax

end CodeStyle
