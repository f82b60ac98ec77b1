import CodeStyle.Proofs.ReportSpans

/-!
The order of reports. Findings are sorted by line and column and compared with their neighbours only,
but places and offsets of a file are ordered alike, so a report is strictly increasing in the offset at
which its findings start, their rule and the offset at which they end.
-/

namespace CodeStyle

namespace Point

/-- Earlier in reading order. -/
def Before (p q : Point) : Prop := p.line < q.line ∨ (p.line = q.line ∧ p.column < q.column)

theorem Before.trans {p q r : Point} (h : p.Before q) (h' : q.Before r) : p.Before r := by
  unfold Before at *
  omega

end Point

namespace Source

variable {s : Source}

theorem placeOf_before_succ (s : Source) (offset : Nat) :
    (s.placeOf offset).Before (s.placeOf (offset + 1)) := by
  simp only [Point.Before, placeOf, List.range_succ, List.countP_append, List.reverse_append,
    List.reverse_singleton, List.singleton_append, List.takeWhile_cons]
  cases h : s.breaksAt offset
  · right
    simp [h]
  · left
    simp [h]

theorem placeOf_before {a b : Nat} (h : a < b) : (s.placeOf a).Before (s.placeOf b) := by
  induction b with
  | zero => omega
  | succ b ih =>
    have hstep := s.placeOf_before_succ b
    by_cases hb : a = b
    · rwa [hb]
    · exact (ih (by omega)).trans hstep

variable {x y : Span}

theorem Exact.start_eq (h : s.Exact x) : (⟨x.startLine, x.startCol⟩ : Point) = s.placeOf x.startByte := by
  rw [(exact_iff.1 h).2.2]
  rfl

theorem Exact.start_before (hx : s.Exact x) (hy : s.Exact y) (h : x.startByte < y.startByte) :
    x.startLine < y.startLine ∨ (x.startLine = y.startLine ∧ x.startCol < y.startCol) := by
  have hb := s.placeOf_before h
  rwa [← hx.start_eq, ← hy.start_eq] at hb

theorem Exact.start_congr (hx : s.Exact x) (hy : s.Exact y) (h : x.startByte = y.startByte) :
    x.startLine = y.startLine ∧ x.startCol = y.startCol := by
  have hp : (⟨x.startLine, x.startCol⟩ : Point) = ⟨y.startLine, y.startCol⟩ := by
    rw [hx.start_eq, hy.start_eq, h]
  simpa using hp

/-- In a file a span is known by its two offsets. -/
theorem Exact.ext (hx : s.Exact x) (hy : s.Exact y) (hstart : x.startByte = y.startByte)
    (hstop : x.endByte = y.endByte) : x = y := by
  rw [show x = s.spanFor x.startByte x.endByte from hx, hstart, hstop]
  exact hy.symm

end Source

theorem isLE_total {α : Type} (cmp : α → α → Ordering) [Std.TransCmp cmp] (a b : α) :
    ((cmp a b).isLE || (cmp b a).isLE) = true := by
  have hswap : cmp b a = (cmp a b).swap := Std.OrientedCmp.eq_swap
  rw [hswap]
  cases cmp a b <;> rfl

theorem sorted_mergeSort {α : Type} (cmp : α → α → Ordering) [Std.TransCmp cmp] (l : List α) :
    (l.mergeSort fun a b ↦ (cmp a b).isLE).Pairwise fun a b ↦ (cmp a b).isLE = true :=
  List.pairwise_mergeSort (fun _ _ _ ↦ Std.TransCmp.isLE_trans) (isLE_total cmp) l

namespace Diagnostic

variable {a b d : Diagnostic} {ds : List Diagnostic}

instance : Std.TransCmp order :=
  inferInstanceAs (Std.TransCmp (compareLex (compareOn line) (compareLex (compareOn column)
    (compareLex (compareOn ruleId) (compareLex (compareOn fun d ↦ d.span.endByte)
      (compareOn message))))))

/-- Before another finding by start, then by rule, then by end. -/
def Precedes (a b : Diagnostic) : Prop :=
  a.span.startByte < b.span.startByte ∨ (a.span.startByte = b.span.startByte ∧
    (a.ruleId < b.ruleId ∨ (a.ruleId = b.ruleId ∧ a.span.endByte < b.span.endByte)))

/-- The rule and the place of a finding. -/
def finding (d : Diagnostic) : String × Span := (d.ruleId, d.span)

theorem sameFinding_iff : a.sameFinding b = true ↔ a.finding = b.finding := by
  simp [sameFinding, finding]

theorem Precedes.trans (h : a.Precedes b) (h' : b.Precedes d) : a.Precedes d := by
  rcases h with h | ⟨h, h₁⟩
  · left
    rcases h' with h' | ⟨h', -⟩ <;> omega
  · rcases h' with h' | ⟨h', h₂⟩
    · left
      omega
    · refine .inr ⟨h.trans h', ?_⟩
      rcases h₁ with h₁ | ⟨h₁, hend⟩
      · rcases h₂ with h₂ | ⟨h₂, -⟩
        · exact .inl (String.lt_trans h₁ h₂)
        · exact .inl (h₂ ▸ h₁)
      · rcases h₂ with h₂ | ⟨h₂, hend'⟩
        · exact .inl (h₁ ▸ h₂)
        · exact .inr ⟨h₁.trans h₂, by omega⟩

theorem Precedes.congr_right (h : a.Precedes b) (hbd : b.finding = d.finding) : a.Precedes d := by
  obtain ⟨hid, hspan⟩ := Prod.ext_iff.1 hbd
  simp only [finding] at hid hspan
  rwa [Precedes, ← hid, ← hspan]

theorem Precedes.finding_ne (h : a.Precedes b) : a.finding ≠ b.finding := by
  intro hab
  obtain ⟨hid, hspan⟩ := Prod.ext_iff.1 hab
  simp only [finding] at hid hspan
  rw [Precedes, hid, hspan] at h
  have := String.lt_irrefl b.ruleId
  simp_all

/-- Of two findings of a file in the order of lines and columns, the first starts earlier, or has the
lesser rule, or ends earlier, unless they are the same. -/
theorem precedes_of_order {s : Source} (ha : s.Exact a.span) (hb : s.Exact b.span)
    (h : (a.order b).isLE = true) : a.Precedes b ∨ a.finding = b.finding := by
  rcases Nat.lt_trichotomy a.span.startByte b.span.startByte with hlt | heq | hgt
  · exact .inl (.inl hlt)
  · obtain ⟨hline, hcol⟩ := ha.start_congr hb heq
    have hrest : ((compare a.ruleId b.ruleId).then ((compare a.span.endByte b.span.endByte).then
        (compare a.message b.message))).isLE = true := by
      simpa [order, line, column, hline, hcol] using h
    cases hid : compare a.ruleId b.ruleId with
    | lt => exact .inl (.inr ⟨heq, .inl (compareOfLessAndEq_eq_lt.1 hid)⟩)
    | gt => simp [hid] at hrest
    | eq =>
      have hid' : a.ruleId = b.ruleId := Std.LawfulEqOrd.eq_of_compare hid
      rcases Nat.lt_trichotomy a.span.endByte b.span.endByte with hlt | hend | hgt
      · exact .inl (.inr ⟨heq, .inr ⟨hid', hlt⟩⟩)
      · exact .inr (by rw [finding, finding, hid', ha.ext hb heq hend])
      · simp [hid, Nat.compare_eq_gt.2 hgt] at hrest
  · have hbefore := hb.start_before ha hgt
    have hcontra : a.order b = .gt := by
      rcases hbefore with hl | ⟨hl, hc⟩
      · simp [order, line, Nat.compare_eq_gt.2 hl]
      · simp [order, line, column, hl, Nat.compare_eq_gt.2 hc]
    rw [hcontra] at h
    cases h

@[simp]
theorem dropRepeated_nil : dropRepeated [] = [] := by
  simp [dropRepeated]

@[simp]
theorem dropRepeated_singleton (d : Diagnostic) : dropRepeated [d] = [d] := by
  simp [dropRepeated]

theorem eq_nil_or_singleton (h : ∀ a b rest, ds = a :: b :: rest → False) : ds = [] ∨ ∃ d, ds = [d] := by
  cases ds with
  | nil => exact .inl rfl
  | cons a ds =>
    cases ds with
    | nil => exact .inr ⟨a, rfl⟩
    | cons b rest => exact (h a b rest rfl).elim

theorem dropRepeated_pairwise (h : ds.Pairwise fun a b ↦ a.Precedes b ∨ a.finding = b.finding) :
    (dropRepeated ds).Pairwise Precedes := by
  fun_induction dropRepeated ds with
  | case1 a b rest _ ih =>
    apply ih
    rw [List.pairwise_cons, List.pairwise_cons] at h
    exact List.pairwise_cons.2 ⟨fun d hd ↦ h.1 d (List.mem_cons_of_mem _ hd), h.2.2⟩
  | case2 a b rest hab ih =>
    obtain ⟨ha, hrest⟩ := List.pairwise_cons.1 h
    refine List.pairwise_cons.2 ⟨fun d hd ↦ ?_, ih hrest⟩
    have hfirst : a.Precedes b :=
      (ha b List.mem_cons_self).resolve_right fun hs ↦ hab (sameFinding_iff.2 hs)
    rcases List.mem_cons.1 (mem_of_mem_dropRepeated hd) with rfl | hd
    · exact hfirst
    · rcases (List.pairwise_cons.1 hrest).1 d hd with hlater | hsame
      · exact hfirst.trans hlater
      · exact hfirst.congr_right hsame
  | case3 ds hds =>
    rcases eq_nil_or_singleton hds with rfl | ⟨d, rfl⟩
    · exact .nil
    · exact List.pairwise_singleton _ d

theorem exists_mem_dropRepeated (h : d ∈ ds) : ∃ d' ∈ dropRepeated ds, d'.finding = d.finding := by
  fun_induction dropRepeated ds generalizing d with
  | case1 a b rest hab ih =>
    rcases List.mem_cons.1 h with rfl | h
    · exact ih List.mem_cons_self
    · rcases List.mem_cons.1 h with rfl | h
      · obtain ⟨d', hd', heq⟩ := ih List.mem_cons_self
        exact ⟨d', hd', heq.trans (sameFinding_iff.1 hab)⟩
      · exact ih (List.mem_cons_of_mem _ h)
  | case2 a b rest _ ih =>
    rcases List.mem_cons.1 h with rfl | h
    · exact ⟨d, List.mem_cons_self, rfl⟩
    · obtain ⟨d', hd', heq⟩ := ih h
      exact ⟨d', List.mem_cons_of_mem _ hd', heq⟩
  | case3 => exact ⟨d, h, rfl⟩

/-- Putting findings in order loses none of them. -/
theorem exists_mem_aggregate (h : d ∈ ds) : ∃ d' ∈ aggregate ds, d'.finding = d.finding :=
  exists_mem_dropRepeated (List.mem_mergeSort.2 h)

theorem aggregate_pairwise {s : Source} (h : ∀ d ∈ ds, s.Exact d.span) :
    (aggregate ds).Pairwise Precedes := by
  apply dropRepeated_pairwise
  refine (sorted_mergeSort order ds).imp_of_mem fun ha hb hab ↦ ?_
  exact precedes_of_order (h _ (List.mem_mergeSort.1 ha)) (h _ (List.mem_mergeSort.1 hb)) hab

end Diagnostic

end CodeStyle
