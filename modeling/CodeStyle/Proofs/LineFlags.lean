import CodeStyle.Proofs.FindingPlaces
import CodeStyle.Proofs.LineSearch

/-!
What lines hold. A token lies on the lines from the one of its first byte to the one of its last, whatever line
breaks there are in it, and the flags of a line say which tokens lie on it.
-/

namespace CodeStyle

/-- A byte of the token is on the line. -/
def Token.OnLine (t : Token) (s : Source) (n : Nat) : Prop := ∃ k, t.Has k ∧ s.LineHas n k

namespace Source

variable {s : Source} {a b k n : Nat}

theorem column_pos (s : Source) (k : Nat) : 0 < (s.placeOf k).column := Nat.add_pos_left Nat.one_pos _

theorem line_le (h : a ≤ b) : (s.placeOf a).line ≤ (s.placeOf b).line := by
  induction b, h using Nat.le_induction with
  | base => exact Nat.le_refl _
  | succ b _ ih =>
    rw [placeOf_next]
    split
    · exact Nat.le_succ_of_le ih
    · exact ih

/-- No line is passed over. -/
theorem exists_line (h : a ≤ b) (hlow : (s.placeOf a).line ≤ n) (hhigh : n ≤ (s.placeOf b).line) :
    ∃ k, a ≤ k ∧ k ≤ b ∧ (s.placeOf k).line = n := by
  induction b, h using Nat.le_induction with
  | base => exact ⟨a, Nat.le_refl _, Nat.le_refl _, Nat.le_antisymm hlow hhigh⟩
  | succ b hab ih =>
    by_cases hn : n ≤ (s.placeOf b).line
    · obtain ⟨k, hak, hkb, hk⟩ := ih hn
      exact ⟨k, hak, Nat.le_succ_of_le hkb, hk⟩
    · refine ⟨b + 1, Nat.le_succ_of_le hab, Nat.le_refl _, ?_⟩
      rw [placeOf_next] at hhigh ⊢
      split at hhigh <;> rename_i hbreak
      · rw [if_pos hbreak]
        dsimp only at hhigh ⊢
        omega
      · exact absurd hhigh hn

theorem lineHas_iff (hn : 0 < n) (hk : k ≤ s.length) : s.LineHas n k ↔ (s.placeOf k).line = n := by
  have hpassed {i x : Nat} (hx : s.lineStarts[i]? = some x) : x ≤ k ↔ i < (s.placeOf k).line := by
    rw [← s.position_eq hk, position, Nat.min_eq_left hk]
    exact le_iff_lt_passed s.lineStarts_sorted hx
  have hcount : (s.placeOf k).line ≤ s.lineStarts.length := by
    rw [← s.position_eq hk, position]
    exact (List.takeWhile_sublist _).length_le
  constructor
  · rintro ⟨start, hstart, hle, hnext⟩
    have hlow := (hpassed hstart).1 hle
    by_contra hne
    have hlt : n < s.lineStarts.length := by omega
    have hk := hnext _ (List.getElem?_eq_getElem hlt)
    exact absurd ((hpassed (List.getElem?_eq_getElem hlt)).2 (by omega)) (Nat.not_le.2 hk)
  · rintro rfl
    have hlt : (s.placeOf k).line - 1 < s.lineStarts.length := by omega
    refine ⟨_, List.getElem?_eq_getElem hlt, (hpassed (List.getElem?_eq_getElem hlt)).2 (by omega), ?_⟩
    intro next hnext
    exact Nat.not_le.1 fun hle ↦ Nat.lt_irrefl _ ((hpassed hnext).1 hle)

section

variable {t : Token} (ht : t ∈ s.tokens)

include ht

/-- The last line that is counted to a token is the line of its last byte, and so before the one on which it ends
if that byte is a line break. -/
theorem lastLine_token : Facts.lastLine t.span = (s.placeOf (t.span.endByte - 1)).line ∧
    t.span.endLine = Facts.lastLine t.span + if s.breaksAt (t.span.endByte - 1) then 1 else 0 := by
  obtain ⟨-, -, hspan⟩ := exact_iff.1 (exact_token ht)
  have hlt := startByte_lt_of_token ht
  have hfirst : t.span.startLine = (s.placeOf t.span.startByte).line := congrArg Span.startLine hspan
  have hplace : (⟨t.span.endLine, t.span.endCol⟩ : Point) = s.placeOf (t.span.endByte - 1 + 1) := by
    rw [Nat.sub_add_cancel (by omega), hspan]
    rfl
  have hle : (s.placeOf t.span.startByte).line ≤ (s.placeOf (t.span.endByte - 1)).line := line_le (by omega)
  have hcolumn := s.column_pos (t.span.endByte - 1)
  rw [placeOf_next] at hplace
  split at hplace <;> rename_i hbreak <;> obtain ⟨hline, hcol⟩ := Point.mk.inj hplace
  · have hstarted : (t.span.endCol == 1 && decide (t.span.startLine < t.span.endLine)) = true := by
      rw [hcol, hline, hfirst, decide_eq_true (by omega)]
      rfl
    rw [Facts.lastLine, if_pos hstarted, if_pos hbreak, hline]
    exact ⟨rfl, rfl⟩
  · have hstarted : (t.span.endCol == 1) = false := beq_false_of_ne (by omega)
    rw [Facts.lastLine, hstarted, Bool.false_and, if_neg Bool.false_ne_true, if_neg hbreak]
    exact ⟨hline, rfl⟩

/-- A token is counted to the lines on which it lies. -/
theorem onLine_iff (hn : 0 < n) : t.OnLine s n ↔ t.span.startLine ≤ n ∧ n ≤ Facts.lastLine t.span := by
  obtain ⟨-, hlength, hspan⟩ := exact_iff.1 (exact_token ht)
  have hlt := startByte_lt_of_token ht
  have hfirst : t.span.startLine = (s.placeOf t.span.startByte).line := congrArg Span.startLine hspan
  rw [hfirst, (lastLine_token ht).1]
  constructor
  · rintro ⟨k, ⟨hlow, hhigh⟩, hline⟩
    rw [← (lineHas_iff hn (by omega)).1 hline]
    exact ⟨line_le hlow, line_le (by omega)⟩
  · rintro ⟨hlow, hhigh⟩
    obtain ⟨k, hstart, hstop, hk⟩ := exists_line (by omega) hlow hhigh
    exact ⟨k, ⟨hstart, by omega⟩, (lineHas_iff hn (by omega)).2 hk⟩

theorem not_onLine_end (hbreak : s.breaksAt (t.span.endByte - 1) = true) : ¬t.OnLine s t.span.endLine := by
  have hend := (lastLine_token ht).2
  rw [if_pos hbreak] at hend
  rw [onLine_iff ht (by omega)]
  omega

end

end Source

/-- The flags of a line say what lies on it. -/
structure LineFact.Exact (s : Source) (l : LineFact) : Prop where
  code : l.hasCode = true ↔ ∃ t ∈ s.tokens, t.isTrivia = false ∧ t.isComment = false ∧ t.OnLine s l.number
  comment : l.hasComment = true ↔ ∃ t ∈ s.tokens, t.isComment = true ∧ t.OnLine s l.number
  blank : l.isBlank = true ↔ ∀ t ∈ s.tokens, t.isTrivia = false → ¬t.OnLine s l.number

namespace Facts

theorem lineTable_exact (s : Source) {count : Nat} {l : LineFact} (hl : l ∈ lineTable count s.tokens) :
    l.Exact s := by
  obtain ⟨n, hn, rfl⟩ := List.mem_map.1 hl
  have hpos : 0 < n := (List.mem_range'_1.1 hn).1
  -- the tokens that are counted to the line, and what is asked of them
  have hany (p : Token → Bool) : ((s.tokens.filter (!·.isTrivia)).filter fun t ↦
        t.span.startLine ≤ n && n ≤ lastLine t.span).any p = true ↔
      ∃ t ∈ s.tokens, t.isTrivia = false ∧ p t = true ∧ t.OnLine s n := by
    simp only [List.any_eq_true, List.mem_filter, Bool.not_eq_true', Bool.and_eq_true, decide_eq_true_eq]
    constructor
    · rintro ⟨t, ⟨⟨ht, htrivia⟩, hline⟩, hp⟩
      exact ⟨t, ht, htrivia, hp, (Source.onLine_iff ht hpos).2 hline⟩
    · rintro ⟨t, ht, htrivia, hp, hline⟩
      exact ⟨t, ⟨⟨ht, htrivia⟩, (Source.onLine_iff ht hpos).1 hline⟩, hp⟩
  have hcode := hany (!·.isComment)
  have hcomment := hany (·.isComment)
  simp only [Bool.not_eq_true'] at hcode
  constructor
  case code => exact hcode
  case comment =>
    refine hcomment.trans ⟨?_, ?_⟩
    · rintro ⟨t, ht, -, hline⟩
      exact ⟨t, ht, hline⟩
    · rintro ⟨t, ht, hc, hline⟩
      exact ⟨t, ht, Token.isTrivia_of_isComment hc, hc, hline⟩
  case blank =>
    rw [LineFact.isBlank, Bool.and_eq_true, Bool.not_eq_true', Bool.not_eq_true', Bool.eq_false_iff,
      Bool.eq_false_iff, Ne, Ne, hcode, hcomment]
    constructor
    · rintro ⟨hno, hnone⟩ t ht htrivia hline
      cases hc : t.isComment with
      | false => exact hno ⟨t, ht, htrivia, hc, hline⟩
      | true => exact hnone ⟨t, ht, htrivia, hc, hline⟩
    · intro hno
      constructor
      · rintro ⟨t, ht, htrivia, -, hline⟩
        exact hno t ht htrivia hline
      · rintro ⟨t, ht, htrivia, -, hline⟩
        exact hno t ht htrivia hline

end Facts

/-- Every line of a file has its flags, and they are right. A token that ends with a line break is not counted to
the line behind it. -/
theorem Analysis.lines_exact (s : Source) :
    (Analysis.of s).facts.lines.length = s.lineCount ∧
    (∀ n, 0 < n → n ≤ s.lineCount → ∃ l, (Analysis.of s).facts.line? n = some l ∧ l.number = n ∧ l.Exact s) ∧
    ∀ t ∈ s.tokens, s.breaksAt (t.span.endByte - 1) = true →
      Facts.lastLine t.span < t.span.endLine ∧ ¬t.OnLine s t.span.endLine := by
  have hlines : (Analysis.of s).facts.lines = Facts.lineTable s.lineCount s.tokens := rfl
  refine ⟨?_, fun n hpos hle ↦ ?_, fun t ht hbreak ↦ ⟨?_, Source.not_onLine_end ht hbreak⟩⟩
  · rw [hlines, Facts.lineTable, List.length_map, List.length_range']
  · obtain ⟨l, hl, hnumber⟩ : ∃ l, (Facts.lineTable s.lineCount s.tokens)[n - 1]? = some l ∧ l.number = n :=
      Facts.lineTable_line hpos hle
    refine ⟨l, ?_, hnumber, Facts.lineTable_exact s (List.mem_of_getElem? hl)⟩
    rw [Facts.line?, beq_false_of_ne (Nat.ne_of_gt hpos), hlines, if_neg Bool.false_ne_true, hl]
  · rw [(Source.lastLine_token ht).2, if_pos hbreak]
    exact Nat.lt_succ_self _

/-- The directive takes the line break behind its backslash, and the line on which it then ends is blank. -/
example : (Analysis.of ⟨"a.c", Text.bytesOf "#x \\\n\n//"⟩).facts.lines =
    [⟨1, true, false⟩, ⟨2, false, false⟩, ⟨3, false, true⟩] := by
  decide +kernel

end CodeStyle
