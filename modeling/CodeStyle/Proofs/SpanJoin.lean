import CodeStyle.Proofs.ReportOrder

/-!
Joining spans. Lines and columns are taken over from the span that starts first and the one that ends last, and an
offset of a file has one place, so that on the spans of a file this is the least span around both.
-/

namespace CodeStyle

/-- The span `t` lies in `s`, by its offsets and by its places. -/
structure Span.Contains (s t : Span) : Prop where
  startByte : s.startByte ≤ t.startByte
  endByte : t.endByte ≤ s.endByte
  start : ¬(⟨t.startLine, t.startCol⟩ : Point).Before ⟨s.startLine, s.startCol⟩
  stop : ¬(⟨s.endLine, s.endCol⟩ : Point).Before ⟨t.endLine, t.endCol⟩

theorem Point.Before.irrefl (p : Point) : ¬p.Before p := by
  unfold Before
  omega

theorem Span.startByte_join (s t : Span) : (s.join t).startByte = min s.startByte t.startByte := by
  by_cases h : s.startByte ≤ t.startByte
  · simp only [join, if_pos h, Nat.min_eq_left h]
  · simp only [join, if_neg h, Nat.min_eq_right (Nat.le_of_not_le h)]

theorem Span.endByte_join (s t : Span) : (s.join t).endByte = max s.endByte t.endByte := by
  by_cases h : t.endByte ≤ s.endByte
  · simp only [join, if_pos h, Nat.max_eq_left h]
  · simp only [join, if_neg h, Nat.max_eq_right (Nat.le_of_not_le h)]

namespace Source

variable {s : Source} {x y z : Span} {a b : Nat}

theorem not_placeOf_before (h : a ≤ b) : ¬(s.placeOf b).Before (s.placeOf a) := by
  intro hbefore
  rcases Nat.lt_or_eq_of_le h with hlt | rfl
  · exact Point.Before.irrefl _ ((placeOf_before hlt).trans hbefore)
  · exact Point.Before.irrefl _ hbefore

namespace Exact

theorem stop_eq (h : s.Exact x) : (⟨x.endLine, x.endCol⟩ : Point) = s.placeOf x.endByte := by
  rw [(exact_iff.1 h).2.2]
  rfl

/-- In a file the offsets of spans say how they lie. -/
theorem contains_iff (hx : s.Exact x) (hy : s.Exact y) :
    x.Contains y ↔ x.startByte ≤ y.startByte ∧ y.endByte ≤ x.endByte := by
  constructor
  · exact fun h ↦ ⟨h.startByte, h.endByte⟩
  · rintro ⟨hstart, hstop⟩
    refine ⟨hstart, hstop, ?_, ?_⟩
    · rw [hx.start_eq, hy.start_eq]
      exact not_placeOf_before hstart
    · rw [hx.stop_eq, hy.stop_eq]
      exact not_placeOf_before hstop

theorem join_eq (hx : s.Exact x) (hy : s.Exact y) :
    x.join y = s.spanFor (min x.startByte y.startByte) (max x.endByte y.endByte) := by
  have h : x.join y = s.spanFor (x.join y).startByte (x.join y).endByte := hx.join hy
  rwa [Span.startByte_join, Span.endByte_join] at h

theorem join_comm (hx : s.Exact x) (hy : s.Exact y) : x.join y = y.join x := by
  rw [hx.join_eq hy, hy.join_eq hx, Nat.min_comm, Nat.max_comm]

theorem join_assoc (hx : s.Exact x) (hy : s.Exact y) (hz : s.Exact z) :
    (x.join y).join z = x.join (y.join z) := by
  apply ((hx.join hy).join hz).ext (hx.join (hy.join hz))
  · simp only [Span.startByte_join, Nat.min_assoc]
  · simp only [Span.endByte_join, Nat.max_assoc]

/-- A span lies around two others just if it lies around their join. -/
theorem contains_join (hx : s.Exact x) (hy : s.Exact y) (hz : s.Exact z) :
    z.Contains (x.join y) ↔ z.Contains x ∧ z.Contains y := by
  rw [hz.contains_iff (hx.join hy), hz.contains_iff hx, hz.contains_iff hy, Span.startByte_join, Span.endByte_join]
  omega

end Exact

/-- On the spans of one file joining is a join: it gives the span from the earlier start to the later end, no order
or grouping matters to it, and what it gives is the least span that contains both. -/
theorem spans_join (s : Source) (a b c d e f : Nat) :
    let x := s.spanFor a b
    let y := s.spanFor c d
    let z := s.spanFor e f
    x.join y = s.spanFor (min x.startByte y.startByte) (max x.endByte y.endByte) ∧
    x.join y = y.join x ∧
    (x.join y).join z = x.join (y.join z) ∧
    x.join x = x ∧
    (x.join y).Contains x ∧ (x.join y).Contains y ∧
    (z.Contains x → z.Contains y → z.Contains (x.join y)) := by
  intro x y z
  have hx : s.Exact x := exact_spanFor s a b
  have hy : s.Exact y := exact_spanFor s c d
  have hz : s.Exact z := exact_spanFor s e f
  have hjoin : s.Exact (x.join y) := hx.join hy
  have hself : (x.join y).Contains (x.join y) := (hjoin.contains_iff hjoin).2 ⟨Nat.le_refl _, Nat.le_refl _⟩
  obtain ⟨hleft, hright⟩ := (hx.contains_join hy hjoin).1 hself
  refine ⟨hx.join_eq hy, hx.join_comm hy, hx.join_assoc hy hz, ?_, hleft, hright, ?_⟩
  · apply (hx.join hx).ext hx
    · rw [Span.startByte_join, Nat.min_self]
    · rw [Span.endByte_join, Nat.max_self]
  · exact fun hzx hzy ↦ (hx.contains_join hy hz).2 ⟨hzx, hzy⟩

/-- Where two spans give one offset different places, their order matters. -/
example : let x : Span := ⟨3, 4, 1, 4, 1, 5⟩
    let y : Span := ⟨3, 4, 2, 1, 2, 2⟩
    x.join y ≠ y.join x := by
  decide

end Source

end CodeStyle
