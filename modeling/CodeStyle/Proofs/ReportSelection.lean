import CodeStyle.Proofs.ReportOrder

/-!
Parts of reports. Leaving the findings of a rule out of a file, or giving them another severity, changes
its report in just this way: sorting is stable, and between two findings that are the same no other rule
comes.
-/

namespace CodeStyle

section Sorting

variable {α : Type}

theorem eq_of_split {p : α → Bool} {x y x' y' : List α} (h : x ++ y = x' ++ y')
    (hx : ∀ b ∈ x, p b = true) (hy : ∀ b ∈ y, p b = false) (hx' : ∀ b ∈ x', p b = true)
    (hy' : ∀ b ∈ y', p b = false) : x = x' ∧ y = y' := by
  have hfront {z w : List α} (hz : ∀ b ∈ z, p b = true) (hw : ∀ b ∈ w, p b = false) :
      (z ++ w).filter p = z := by
    rw [List.filter_append, List.filter_eq_self.2 hz, List.filter_eq_nil_iff.2 (by simpa using hw),
      List.append_nil]
  have hxx : x = x' := by rw [← hfront hx hy, h, hfront hx' hy']
  subst hxx
  exact ⟨rfl, List.append_cancel_left h⟩

variable (cmp : α → α → Ordering) [Std.TransCmp cmp]

/-- An element is sorted in behind those that it is greater than. -/
theorem mergeSort_cons_split (a : α) (l : List α) :
    ∃ l₁ l₂, ((a :: l).mergeSort fun a b ↦ (cmp a b).isLE) = l₁ ++ a :: l₂ ∧
      (l.mergeSort fun a b ↦ (cmp a b).isLE) = l₁ ++ l₂ ∧
      (∀ b ∈ l₁, (!(cmp a b).isLE) = true) ∧ ∀ b ∈ l₂, (!(cmp a b).isLE) = false := by
  obtain ⟨l₁, l₂, hcons, hl, hless⟩ :=
    List.mergeSort_cons (fun _ _ _ ↦ Std.TransCmp.isLE_trans) (isLE_total cmp) a l
  refine ⟨l₁, l₂, hcons, hl, hless, fun b hb ↦ ?_⟩
  have hsorted := sorted_mergeSort cmp (a :: l)
  rw [hcons, List.pairwise_append, List.pairwise_cons] at hsorted
  simp [hsorted.2.1.1 b hb]

theorem filter_mergeSort (p : α → Bool) (l : List α) :
    (l.mergeSort fun a b ↦ (cmp a b).isLE).filter p = (l.filter p).mergeSort fun a b ↦ (cmp a b).isLE := by
  induction l with
  | nil => simp
  | cons a l ih =>
    obtain ⟨l₁, l₂, hcons, hl, hless, hmore⟩ := mergeSort_cons_split cmp a l
    rw [hl, List.filter_append] at ih
    rw [hcons, List.filter_append]
    by_cases ha : p a = true
    · obtain ⟨m₁, m₂, hcons', hm, hless', hmore'⟩ := mergeSort_cons_split cmp a (l.filter p)
      have hparts := eq_of_split (ih.trans hm) (fun b hb ↦ hless b (List.mem_filter.1 hb).1)
        (fun b hb ↦ hmore b (List.mem_filter.1 hb).1) hless' hmore'
      rw [List.filter_cons_of_pos ha, List.filter_cons_of_pos ha, hcons', hparts.1, hparts.2]
    · rw [List.filter_cons_of_neg ha, List.filter_cons_of_neg ha, ih]

end Sorting

namespace Diagnostic

variable {a b d : Diagnostic} {ds : List Diagnostic}

/-- The order by place and rule alone. -/
def placeOrder (a b : Diagnostic) : Ordering :=
  (compare a.line b.line).then <| (compare a.column b.column).then <| compare a.ruleId b.ruleId

instance : Std.TransCmp placeOrder :=
  inferInstanceAs (Std.TransCmp (compareLex (compareOn line) (compareLex (compareOn column)
    (compareOn ruleId))))

theorem order_eq (a b : Diagnostic) : a.order b = (a.placeOrder b).then
    ((compare a.span.endByte b.span.endByte).then (compare a.message b.message)) := by
  simp only [order, placeOrder, Ordering.then_assoc]

theorem isLE_placeOrder (h : (a.order b).isLE = true) : (a.placeOrder b).isLE = true := by
  rw [order_eq] at h
  cases hp : a.placeOrder b <;> simp_all

/-- What is sorted between two findings of one rule at one place is of that rule. -/
theorem ruleId_between (hab : (a.order b).isLE = true) (hbd : (b.order d).isLE = true)
    (h : a.finding = d.finding) : a.ruleId = b.ruleId := by
  obtain ⟨hid, hspan⟩ := Prod.ext_iff.1 h
  simp only [finding] at hid hspan
  have hba : (b.placeOrder a).isLE = true := by
    have hbd' := isLE_placeOrder hbd
    rwa [placeOrder, line, line, column, column, ← hid, ← hspan] at hbd'
  have heq : a.placeOrder b = .eq := Std.OrientedCmp.isLE_antisymm (isLE_placeOrder hab) hba
  have hrule : compare a.ruleId b.ruleId = .eq := by
    unfold placeOrder at heq
    simp only [Ordering.then_eq_eq] at heq
    exact heq.2.2
  exact Std.LawfulEqOrd.eq_of_compare hrule

theorem filter_dropRepeated (p : String → Bool) (h : ds.Pairwise fun a b ↦ (a.order b).isLE = true) :
    (dropRepeated ds).filter (p ·.ruleId) = dropRepeated (ds.filter (p ·.ruleId)) := by
  fun_induction dropRepeated ds with
  | case1 a b rest hab ih =>
    obtain ⟨ha, hb⟩ := List.pairwise_cons.1 h
    have hrest : (a :: rest).Pairwise fun a b ↦ (a.order b).isLE = true :=
      List.pairwise_cons.2 ⟨fun d hd ↦ ha d (List.mem_cons_of_mem _ hd), (List.pairwise_cons.1 hb).2⟩
    have hid : a.ruleId = b.ruleId := congrArg Prod.fst (sameFinding_iff.1 hab)
    rw [ih hrest]
    cases hp : p a.ruleId
    · simp [hp, ← hid]
    · simp [hp, ← hid, dropRepeated, hab]
  | case2 a b rest hab ih =>
    obtain ⟨ha, hrest⟩ := List.pairwise_cons.1 h
    cases hp : p a.ruleId
    · simp only [List.filter_cons, hp, ih hrest]
      rfl
    · rw [List.filter_cons_of_pos (by simpa using hp), List.filter_cons_of_pos (by simpa using hp), ih hrest]
      cases hb : p b.ruleId
      · rw [List.filter_cons_of_neg (by simp [hb])]
        -- `b` is left out, and what then follows `a` is still not the same as `a`
        cases hnext : rest.filter (p ·.ruleId) with
        | nil => simp
        | cons d more =>
          have hd : d ∈ rest := (List.mem_filter.1 (hnext ▸ List.mem_cons_self)).1
          have hne : a.sameFinding d = false := by
            rw [Bool.eq_false_iff]
            intro hsame
            have hid := ruleId_between (ha b List.mem_cons_self) ((List.pairwise_cons.1 hrest).1 d hd)
              (sameFinding_iff.1 hsame)
            rw [← hid, hp] at hb
            cases hb
          simp [dropRepeated, hne]
      · rw [List.filter_cons_of_pos (by simpa using hb)]
        simp [dropRepeated, hab]
  | case3 ds hds =>
    rcases eq_nil_or_singleton hds with rfl | ⟨d, rfl⟩
    · simp
    · cases hp : p d.ruleId <;> simp [hp]

theorem filter_aggregate (p : String → Bool) (ds : List Diagnostic) :
    (aggregate ds).filter (p ·.ruleId) = aggregate (ds.filter (p ·.ruleId)) := by
  rw [aggregate, aggregate, filter_dropRepeated p (sorted_mergeSort order ds), filter_mergeSort order]

/-- A change of findings that does not show in the order of a report. -/
structure Harmless (g : Diagnostic → Diagnostic) : Prop where
  finding : ∀ d, (g d).finding = d.finding
  message : ∀ d, (g d).message = d.message
  file : ∀ d, (g d).file = d.file

namespace Harmless

variable {g : Diagnostic → Diagnostic}

theorem ruleId (hg : Harmless g) (d : Diagnostic) : (g d).ruleId = d.ruleId :=
  congrArg Prod.fst (hg.finding d)

theorem span (hg : Harmless g) (d : Diagnostic) : (g d).span = d.span :=
  congrArg Prod.snd (hg.finding d)

theorem order (hg : Harmless g) (a b : Diagnostic) : (g a).order (g b) = a.order b := by
  simp only [Diagnostic.order, line, column, hg.ruleId, hg.span, hg.message]

theorem placeOrder (hg : Harmless g) (a b : Diagnostic) : (g a).placeOrder (g b) = a.placeOrder b := by
  simp only [Diagnostic.placeOrder, line, column, hg.ruleId, hg.span]

theorem map_dropRepeated (hg : Harmless g) (ds : List Diagnostic) :
    (dropRepeated ds).map g = dropRepeated (ds.map g) := by
  have hsame (a b : Diagnostic) : (g a).sameFinding (g b) = a.sameFinding b := by
    simp only [sameFinding, hg.ruleId, hg.span]
  fun_induction dropRepeated ds with
  | case1 a b rest hab ih =>
    rw [ih]
    simp [dropRepeated, hsame, hab]
  | case2 a b rest hab ih =>
    rw [List.map_cons, ih]
    simp [dropRepeated, hsame, hab]
  | case3 ds hds =>
    rcases eq_nil_or_singleton hds with rfl | ⟨d, rfl⟩
    · simp
    · simp

theorem map_aggregate (hg : Harmless g) (ds : List Diagnostic) :
    (aggregate ds).map g = aggregate (ds.map g) := by
  rw [aggregate, aggregate, hg.map_dropRepeated, List.map_mergeSort]
  intro a _ b _
  rw [hg.order]

end Harmless

/-- A finding with another severity if it is of the rule with this id. -/
def relevel (id : String) (s : Severity) (d : Diagnostic) : Diagnostic :=
  if d.ruleId == id then { d with severity := s } else d

theorem relevel_harmless (id : String) (s : Severity) : Harmless (relevel id s) := by
  constructor <;> intro d <;> unfold relevel <;> split <;> rfl

end Diagnostic

/-- A suppressed finding with another severity if it is of the rule with this id. -/
def Suppressed.relevel (id : String) (s : Severity) (x : Suppressed) : Suppressed :=
  { x with diagnostic := x.diagnostic.relevel id s }

instance : Std.TransCmp Suppressed.order :=
  inferInstanceAs (Std.TransCmp (compareLex (compareOn fun x : Suppressed ↦ x.diagnostic.line)
    (compareLex (compareOn fun x ↦ x.diagnostic.column) (compareOn fun x ↦ x.diagnostic.ruleId))))

namespace FileReport

/-- A report without what it says of the rule with this id. -/
def without (r : FileReport) (id : String) : FileReport :=
  { r with
    diagnostics := r.diagnostics.filter (·.ruleId != id)
    suppressed := r.suppressed.filter (·.diagnostic.ruleId != id) }

/-- A report in which the findings of the rule with this id have another severity. -/
def relevel (r : FileReport) (id : String) (s : Severity) : FileReport :=
  { r with
    diagnostics := r.diagnostics.map (Diagnostic.relevel id s)
    suppressed := r.suppressed.map (Suppressed.relevel id s) }

/-- A report as it is when the rule with this id is set in this way. -/
def under (r : FileReport) (id : String) : RuleSetting → FileReport
  | .off => r.without id
  | .level s => r.relevel id s

variable (path : String) (encoding : Encoding) (lines : Nat) (active : List Diagnostic)
  (suppressed : List Suppressed) (id : String)

theorem of_without :
    of path encoding lines (active.filter (·.ruleId != id)) (suppressed.filter (·.diagnostic.ruleId != id)) =
      (of path encoding lines active suppressed).without id := by
  have hactive := Diagnostic.filter_aggregate (· != id) active
  have hsuppressed := filter_mergeSort Suppressed.order (·.diagnostic.ruleId != id) suppressed
  simp only [of, without, hactive, hsuppressed]

theorem of_relevel (s : Severity) :
    of path encoding lines (active.map (Diagnostic.relevel id s)) (suppressed.map (Suppressed.relevel id s)) =
      (of path encoding lines active suppressed).relevel id s := by
  have hg := Diagnostic.relevel_harmless id s
  have hsuppressed : (suppressed.mergeSort fun a b ↦ (a.order b).isLE).map (Suppressed.relevel id s) =
      (suppressed.map (Suppressed.relevel id s)).mergeSort fun a b ↦ (a.order b).isLE := by
    refine List.map_mergeSort fun a _ b _ ↦ ?_
    exact congrArg Ordering.isLE (hg.placeOrder a.diagnostic b.diagnostic).symm
  simp only [of, relevel, hg.map_aggregate, hsuppressed]

end FileReport

end CodeStyle
