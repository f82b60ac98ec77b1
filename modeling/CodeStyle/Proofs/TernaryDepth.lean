import CodeStyle.Proofs.Foci
import CodeStyle.Rule.Structure
import Mathlib.Algebra.BigOperators.Group.Finset.Basic

/-!
How deep a conditional operator is nested. The tokens of a file are cut into segments, and the brackets of a
segment into groups; a `?` is as deep as there are `?`s before it that wait for their end, in its own group and in
those around it. The counters of the check say the same: each level of brackets carries the sum over the levels
around it.
-/

namespace CodeStyle.Rule.Structure

open Finset (range sum_congr sum_range_succ)

/-- Whether a token is code with one of these texts. -/
def reads (texts : List String) (t : Token) : Bool := t.isCode && texts.contains t.text

/-- Whether a segment ends at a token. -/
def endsSegment (t : Token) : Bool := t.kind == .directive || reads [";", "\x7b", "\x7d"] t

def opensGroup (t : Token) : Bool := reads ["(", "["] t

def closesGroup (t : Token) : Bool := reads [")", "]"] t

def isComma (t : Token) : Bool := reads [","] t

def isQuestion (t : Token) : Bool := reads ["?"] t

/-- The part of a segment that is among the tokens `before`, which come nearest first. -/
def segment (before : List Token) : List Token := before.takeWhile (!endsSegment ·)

/-- The number of groups that are open behind a part of a segment. A bracket closes nothing where nothing is
open. -/
def openGroups : List Token → Nat
  | [] => 0
  | t :: before =>
    if opensGroup t then openGroups before + 1
    else if closesGroup t then openGroups before - 1
    else openGroups before

/-- The tokens directly at a level of a segment, back to where the level was entered. At level zero no group
is around them. -/
def direct (level : Nat) : List Token → List Token
  | [] => []
  | t :: before =>
    if openGroups before < level then []
    else if openGroups before = level then t :: direct level before
    else direct level before

/-- The `?`s directly at a level since its last comma. -/
def pending (level : Nat) (part : List Token) : Nat :=
  ((direct level part).takeWhile (!isComma ·)).countP isQuestion

/-- How deep a conditional operator is nested, itself included: the `?`s pending in its segment and in each group
around it. -/
def ternaryDepth (f : Focus) : Nat :=
  ∑ level ∈ range (openGroups (segment f.before) + 1), pending level (f.token :: segment f.before)

section

variable {level : Nat} {t : Token} {before part : List Token}

theorem segment_of_ends (h : endsSegment t = true) : segment (t :: before) = [] := by
  rw [segment, List.takeWhile_cons_of_neg (by simp [h])]

theorem segment_of_not_ends (h : endsSegment t = false) : segment (t :: before) = t :: segment before := by
  rw [segment, List.takeWhile_cons_of_pos (by simp [h]), segment]

theorem pending_of_lt (h : level < openGroups part) : pending level (t :: part) = pending level part := by
  rw [pending, direct, if_neg (Nat.not_lt.2 (Nat.le_of_lt h)), if_neg (Nat.ne_of_gt h), pending]

theorem pending_of_gt (h : openGroups part < level) : pending level (t :: part) = 0 := by
  rw [pending, direct, if_pos h]
  rfl

theorem pending_at (h : openGroups part = level) : pending level (t :: part) =
    if isComma t then 0 else pending level part + if isQuestion t then 1 else 0 := by
  rw [pending, direct, if_neg (Nat.not_lt.2 (Nat.le_of_eq h.symm)), if_pos h, List.takeWhile_cons, pending]
  cases isComma t with
  | true => rfl
  | false => exact List.countP_cons ..

end

namespace TernaryLevels

/-- What is counted at a level behind a part of a segment. -/
def levelAt (part : List Token) (level : Nat) : TernaryLevel :=
  ⟨∑ l ∈ range level, pending l part, ∑ l ∈ range (level + 1), pending l part⟩

/-- The levels behind a part of a segment. -/
def behind (part : List Token) : TernaryLevels :=
  ⟨levelAt part (openGroups part), (List.range (openGroups part)).reverse.map (levelAt part)⟩

theorem behind_nil : behind [] = start := rfl

variable {t : Token} {part : List Token} {level : Nat}

theorem levelAt_of_lt (h : level < openGroups part) : levelAt (t :: part) level = levelAt part level := by
  have hsum {n : Nat} (hn : n ≤ openGroups part) :
      ∑ l ∈ range n, pending l (t :: part) = ∑ l ∈ range n, pending l part := by
    refine sum_congr rfl fun l hl ↦ pending_of_lt ?_
    exact Nat.lt_of_lt_of_le (Finset.mem_range.1 hl) hn
  rw [levelAt, hsum (Nat.le_of_lt h), hsum h, levelAt]

/-- The levels around the innermost one stay as they are. -/
theorem map_levelAt (t : Token) (part : List Token) : (List.range (openGroups part)).reverse.map (levelAt (t :: part)) =
    (List.range (openGroups part)).reverse.map (levelAt part) := by
  refine List.map_congr_left fun l hl ↦ levelAt_of_lt ?_
  simpa using hl

/-- At the innermost level, what `t` adds is counted. -/
theorem levelAt_innermost : levelAt (t :: part) (openGroups part) =
    ⟨∑ l ∈ range (openGroups part), pending l part,
      (∑ l ∈ range (openGroups part), pending l part) + pending (openGroups part) (t :: part)⟩ := by
  have hsum : ∑ l ∈ range (openGroups part), pending l (t :: part) = ∑ l ∈ range (openGroups part), pending l part :=
    sum_congr rfl fun l hl ↦ pending_of_lt (Finset.mem_range.1 hl)
  rw [levelAt, sum_range_succ, hsum]

theorem levelAt_innermost_of_plain (part : List Token) (hcomma : isComma t = false) (hquestion : isQuestion t = false) :
    levelAt (t :: part) (openGroups part) = levelAt part (openGroups part) := by
  rw [levelAt_innermost, pending_at rfl, hcomma, hquestion, levelAt, sum_range_succ]
  rfl

theorem behind_of_open (hopen : opensGroup t = true) (hcomma : isComma t = false) (hquestion : isQuestion t = false) :
    behind (t :: part) = (behind part).openBracket := by
  have hgroups : openGroups (t :: part) = openGroups part + 1 := by rw [openGroups, if_pos hopen]
  have hplain := levelAt_innermost_of_plain part hcomma hquestion
  have hinner : levelAt (t :: part) (openGroups part + 1) =
      ⟨(levelAt part (openGroups part)).current, (levelAt part (openGroups part)).current⟩ := by
    have hcurrent := congrArg TernaryLevel.current hplain
    rw [levelAt, sum_range_succ _ (openGroups part + 1), pending_of_gt (Nat.lt_succ_self _), Nat.add_zero]
    exact congrArg₂ TernaryLevel.mk hcurrent hcurrent
  rw [behind, hgroups, List.range_succ, List.reverse_append, List.reverse_singleton, List.singleton_append,
    List.map_cons, map_levelAt, hplain, hinner, behind]
  rfl

theorem behind_of_close (hopen : opensGroup t = false) (hclose : closesGroup t = true) (hcomma : isComma t = false)
    (hquestion : isQuestion t = false) : behind (t :: part) = (behind part).closeBracket := by
  have hgroups : openGroups (t :: part) = openGroups part - 1 := by
    rw [openGroups, if_neg (by simp [hopen]), if_pos hclose]
  cases hpart : openGroups part with
  | zero =>
    have hplain := levelAt_innermost_of_plain part hcomma hquestion
    rw [hpart] at hgroups hplain
    rw [behind, hgroups, behind, hpart]
    exact congrArg (TernaryLevels.mk · []) hplain
  | succ n =>
    have hmap := map_levelAt t part
    rw [hpart, Nat.add_sub_cancel] at hgroups
    rw [hpart, List.range_succ, List.reverse_append, List.reverse_singleton, List.singleton_append, List.map_cons,
      List.map_cons, List.cons.injEq] at hmap
    rw [behind, hgroups, hmap.1, hmap.2, behind, hpart, List.range_succ, List.reverse_append, List.reverse_singleton,
      List.singleton_append, List.map_cons]
    rfl

/-- A token that is no bracket changes the count of the innermost level only. -/
theorem behind_of_inner (hopen : opensGroup t = false) (hclose : closesGroup t = false) :
    behind (t :: part) = { behind part with inner := levelAt (t :: part) (openGroups part) } := by
  have hgroups : openGroups (t :: part) = openGroups part := by
    rw [openGroups, if_neg (by simp [hopen]), if_neg (by simp [hclose])]
  rw [behind, hgroups, map_levelAt, behind]

theorem next_of_ends (hends : endsSegment t = true) (l : TernaryLevels) : l.next t = start := by
  rw [next]
  rcases Bool.or_eq_true_iff.1 hends with hkind | hreads
  · rw [if_pos hkind]
  · obtain ⟨hcode, htext⟩ := Bool.and_eq_true_iff.1 hreads
    have htext : t.text = ";" ∨ t.text = "\x7b" ∨ t.text = "\x7d" := by simpa using htext
    rcases htext with htext | htext | htext <;> simp [hcode, htext]

/-- The step of the check, on the levels behind what it has read of a segment. -/
theorem next_behind (hends : endsSegment t = false) : (behind part).next t = behind (t :: part) := by
  obtain ⟨hkind, hends⟩ := Bool.or_eq_false_iff.1 hends
  rw [next, if_neg (by simp [hkind])]
  cases hcode : t.isCode with
  | false =>
    have hreads (texts : List String) : reads texts t = false := by rw [reads, hcode, Bool.false_and]
    rw [behind_of_inner (hreads _) (hreads _), levelAt_innermost_of_plain part (hreads _) (hreads _)]
    rfl
  | true =>
    have hreads (texts : List String) : reads texts t = texts.contains t.text := by rw [reads, hcode, Bool.true_and]
    simp only [Bool.not_true, Bool.false_eq_true, if_false]
    split_ifs with hopen hclose hcomma hend hquestion
    · have htext : t.text = "(" ∨ t.text = "[" := by simpa using hopen
      refine (behind_of_open ?_ ?_ ?_).symm <;> rcases htext with htext | htext <;>
        simp [opensGroup, isComma, isQuestion, hreads, htext]
    · have htext : t.text = ")" ∨ t.text = "]" := by simpa using hclose
      refine (behind_of_close ?_ ?_ ?_ ?_).symm <;> rcases htext with htext | htext <;>
        simp [opensGroup, closesGroup, isComma, isQuestion, hreads, htext]
    · have htext : t.text = "," := by simpa using hcomma
      have hclass : isComma t = true := by simp [isComma, hreads, htext]
      rw [behind_of_inner (by simp [opensGroup, hreads, htext]) (by simp [closesGroup, hreads, htext]),
        levelAt_innermost, pending_at rfl, if_pos hclass]
      rfl
    · rw [hreads] at hends
      simp_all
    · have htext : t.text = "?" := by simpa using hquestion
      have hcomma : isComma t = false := by simp [isComma, hreads, htext]
      have hclass : isQuestion t = true := by simp [isQuestion, hreads, htext]
      rw [behind_of_inner (by simp [opensGroup, hreads, htext]) (by simp [closesGroup, hreads, htext]),
        levelAt_innermost, pending_at rfl, hcomma, hclass, question, behind, levelAt, sum_range_succ]
      rfl
    · rw [behind_of_inner, levelAt_innermost_of_plain]
      · rfl
      all_goals simp_all [opensGroup, closesGroup, isComma, isQuestion]

end TernaryLevels

section

variable {limit i : Nat} {t : Token} {before tokens : List Token}

open TernaryLevels

/-- The step of the check, on the levels behind what it has read of a file. -/
theorem next_segment (t : Token) (before : List Token) :
    (behind (segment before)).next t = behind (segment (t :: before)) := by
  cases hends : endsSegment t with
  | true => rw [segment_of_ends hends, behind_nil, next_of_ends hends]
  | false => rw [segment_of_not_ends hends, next_behind hends]

theorem current_behind {f : Focus} (hquestion : isQuestion f.token = true) :
    (behind (segment (f.token :: f.before))).inner.current = ternaryDepth f := by
  obtain ⟨hcode, htext⟩ := Bool.and_eq_true_iff.1 hquestion
  have htext : f.token.text = "?" := by simpa using htext
  have hkind : (f.token.kind == .directive) = false := by
    rw [beq_eq_false_iff_ne]
    intro hkind
    rw [Token.isCode, hkind] at hcode
    cases hcode
  rw [segment_of_not_ends (by simp [endsSegment, hkind, reads, htext]),
    behind_of_inner (by simp [opensGroup, reads, htext]) (by simp [closesGroup, reads, htext])]
  rfl

/-- What the check finds in the rest of a file. -/
theorem deepTernaries_eq (limit i : Nat) (before tokens : List Token) :
    deepTernaries limit (behind (segment before)) tokens =
      ((Focus.fromIndex i before tokens).filter fun f ↦ isQuestion f.token && ternaryDepth f == limit + 1).map
        Focus.token := by
  induction tokens generalizing i before with
  | nil => rfl
  | cons t tokens ih =>
    have hquestion : (t.isCode && t.text == "?") = isQuestion t := by
      simp [isQuestion, reads, Bool.beq_eq_decide_eq]
    rw [deepTernaries, next_segment, ih (i + 1) (t :: before), Focus.fromIndex, List.filter_cons, hquestion]
    cases hclass : isQuestion t with
    | false => rfl
    | true =>
      have hdepth := current_behind (f := ⟨i, before, t, tokens⟩) hclass
      dsimp only at hdepth ⊢
      rw [hdepth, Bool.true_and]
      split <;> rfl

end

/-- The conditional operators that are reported are those at the depth behind the limit, each once and in order. -/
theorem ternaryNesting_exact (r : RuleInput) : ternaryNesting r =
    .found (((Focus.all r.tokens).filter fun f ↦
      isQuestion f.token && ternaryDepth f == r.limits.ternaryDepth + 1).map fun f ↦
        ⟨f.token.span,
          s!"conditional operator nested {r.limits.ternaryDepth + 1} deep, limit is {r.limits.ternaryDepth}", none⟩) := by
  have hdeep := deepTernaries_eq r.limits.ternaryDepth 0 [] r.tokens
  rw [show segment [] = [] from rfl, TernaryLevels.behind_nil] at hdeep
  rw [ternaryNesting, hdeep, List.map_map, Focus.all]
  rfl

-- A comma ends what is pending in its group, any bracket closes the innermost group, and the last `)` closes none.
example : ((Focus.all (Token.tokenize (Text.bytesOf "a?f(b?c,d?[e?f)?g])?h:i;j?k"))).filter (isQuestion ·.token)).map
    ternaryDepth = [1, 2, 2, 3, 3, 2, 1] := by
  decide +kernel

end CodeStyle.Rule.Structure
