import CodeStyle.Suppression.Basic
import Mathlib.Data.List.Nodup
import Mathlib.Data.List.Perm.Basic

/-!
Ranges of directives. The directives of a file are resolved one after the other with a list of the ranges
that are open. What each step closes is compared with a pairing of starts and ends that speaks of the
directives and their order alone: an end without filters takes all that is open, and an end with filters
the latest open start that names the same rules.
-/

namespace CodeStyle.Suppression

abbrev Numbered := Directive × Nat

/-- Whether two directives name the same rules, in any order and any number of times. -/
def SameRules (a b : Directive) : Prop := ∀ f, f ∈ a.filters ↔ f ∈ b.filters

/-- Whether the range that `s` opens is still open when `e` is met. -/
structure OpenAt (ds : List Directive) (pairs : List (Numbered × Numbered)) (s e : Numbered) : Prop where
  mem : s ∈ ds.zipIdx
  kind : s.1.kind = .disable
  before : s.2 < e.2
  unclosed : ∀ e', (s, e') ∈ pairs → e.2 ≤ e'.2

/-- Starts of ranges and the ends that close them, last in, first out. -/
structure Paired (ds : List Directive) (pairs : List (Numbered × Numbered)) : Prop where
  once : (pairs.map Prod.fst).Nodup
  ends : ∀ p ∈ pairs, p.2 ∈ ds.zipIdx ∧ p.2.1.kind = .enable
  all : ∀ e ∈ ds.zipIdx, e.1.kind = .enable → e.1.filters = [] → ∀ s, (s, e) ∈ pairs ↔ OpenAt ds pairs s e
  latest : ∀ e ∈ ds.zipIdx, e.1.kind = .enable → e.1.filters ≠ [] → ∀ s, (s, e) ∈ pairs ↔
    OpenAt ds pairs s e ∧ SameRules s.1 e.1 ∧ ∀ t, OpenAt ds pairs t e → SameRules t.1 e.1 → t.2 ≤ s.2

/-- The starts that no end closes. -/
def unclosed (ds : List Directive) (pairs : List (Numbered × Numbered)) : List Numbered :=
  ds.zipIdx.filter fun s ↦ s.1.kind == .disable && !(pairs.map Prod.fst).contains s

/-- The ends that close nothing. -/
def unmatched (ds : List Directive) (pairs : List (Numbered × Numbered)) : List Numbered :=
  ds.zipIdx.filter fun e ↦ e.1.kind == .enable && !(pairs.map Prod.snd).contains e

def strangers (book : RuleBook) (d : Directive) : List String :=
  d.filters.filter fun f ↦ book.entries.all fun e ↦ !filterNames f e.rule.id

variable {book : RuleBook} {file : String} {ds : List Directive} {pairs : List (Numbered × Numbered)}
  {d : Directive} {s e : Numbered}

theorem sameFilters_iff {a b : Directive} : sameFilters a.filters b.filters = true ↔ SameRules a b := by
  simp only [sameFilters, SameRules, Bool.and_eq_true, List.all_eq_true, List.contains_iff_mem]
  constructor
  · rintro ⟨hab, hba⟩ f
    exact ⟨hab f, hba f⟩
  · intro h
    exact ⟨fun f ↦ (h f).1, fun f ↦ (h f).2⟩

theorem zipIdx_nodup (ds : List Directive) : ds.zipIdx.Nodup := by
  apply List.Nodup.of_map Prod.snd
  rw [List.zipIdx_map_snd]
  exact List.nodup_range'

theorem zipIdx_snoc (ds : List Directive) (d : Directive) :
    (ds ++ [d]).zipIdx = ds.zipIdx ++ [(d, ds.length)] := by
  rw [List.zipIdx_append, Nat.zero_add, List.zipIdx_singleton]

theorem number_lt (h : s ∈ ds.zipIdx) : s.2 < ds.length := List.snd_lt_of_mem_zipIdx h

theorem mem_unclosed : s ∈ unclosed ds pairs ↔
    s ∈ ds.zipIdx ∧ s.1.kind = .disable ∧ s ∉ pairs.map Prod.fst := by
  simp [unclosed]

/-- What an end takes of the starts that are open before it. -/
structure Closes (opened : List Numbered) (d : Directive) (closed : List Numbered) : Prop where
  all : d.filters = [] → ∀ s, s ∈ closed ↔ s ∈ opened
  latest : d.filters ≠ [] → ∀ s, s ∈ closed ↔
    s ∈ opened ∧ SameRules s.1 d ∧ ∀ t ∈ opened, SameRules t.1 d → t.2 ≤ s.2

theorem exists_close (d : Directive) {opened : List Numbered} (h : opened.Pairwise fun a b ↦ b.2 < a.2) :
    ∃ closed rest, close d (opened.map Prod.fst) = (closed.map Prod.fst, rest.map Prod.fst) ∧
      Closes opened d closed ∧ (closed ++ rest).Perm opened ∧ rest.Sublist opened := by
  unfold close
  by_cases hempty : d.filters = []
  · refine ⟨opened.reverse, [], ?_, ⟨fun _ s ↦ List.mem_reverse, fun hne ↦ absurd hempty hne⟩, ?_, ?_⟩
    · simp [hempty]
    · simp
    · exact List.nil_sublist _
  · have hfalse : d.filters.isEmpty = false := by simpa using hempty
    rw [hfalse, if_neg Bool.false_ne_true, List.find?_map]
    cases hfind : opened.find? ((sameFilters ·.filters d.filters) ∘ Prod.fst) with
    | none =>
      have hnone : ∀ s ∈ opened, ¬SameRules s.1 d := by
        intro s hs hsame
        exact List.find?_eq_none.1 hfind s hs (sameFilters_iff.2 hsame)
      refine ⟨[], opened, rfl, ⟨fun he ↦ absurd he hempty, fun _ s ↦ ?_⟩, .refl _, .refl _⟩
      constructor
      · intro hs
        cases hs
      · rintro ⟨hs, hsame, -⟩
        exact absurd hsame (hnone s hs)
    | some start =>
      obtain ⟨hstart, front, back, rfl, hfront⟩ := List.find?_eq_some_iff_append.1 hfind
      have hsame : SameRules start.1 d := sameFilters_iff.1 hstart
      have hother : ∀ s ∈ front, ¬SameRules s.1 d := by
        intro s hs hsame
        have hnot := hfront s hs
        rw [Function.comp_apply, sameFilters_iff.2 hsame] at hnot
        cases hnot
      -- The later starts are in front, so the first that fits is the latest.
      have hlater : ∀ t ∈ back, t.2 < start.2 := by
        intro t ht
        exact List.rel_of_pairwise_cons (List.pairwise_append.1 h).2.1 ht
      refine ⟨[start], front ++ back, ?_, ⟨fun he ↦ absurd he hempty, fun _ s ↦ ?_⟩, ?_, ?_⟩
      · have herase : (front ++ start :: back).eraseP ((sameFilters ·.filters d.filters) ∘ Prod.fst) =
            front ++ back := by
          rw [List.eraseP_append_right _ fun s hs ↦ by simpa using hfront s hs, List.eraseP_cons_of_pos hstart]
        rw [Option.map_some, List.eraseP_map, herase]
        rfl
      · rw [List.mem_singleton]
        constructor
        · rintro rfl
          refine ⟨by simp, hsame, fun t ht htsame ↦ ?_⟩
          rcases List.mem_append.1 ht with ht | ht
          · exact absurd htsame (hother t ht)
          · rcases List.mem_cons.1 ht with rfl | ht
            · exact Nat.le_refl _
            · exact Nat.le_of_lt (hlater t ht)
        · rintro ⟨hs, hssame, hlast⟩
          rcases List.mem_append.1 hs with hs | hs
          · exact absurd hssame (hother s hs)
          · rcases List.mem_cons.1 hs with rfl | hs
            · rfl
            · have hle := hlast start (by simp) hsame
              exact absurd (hlater s hs) (Nat.not_lt_of_le hle)
      · rw [List.singleton_append]
        exact List.perm_middle.symm
      · exact (List.Sublist.refl front).append (List.sublist_cons_self start back)

def extend (ds : List Directive) (pairs : List (Numbered × Numbered)) (d : Directive) (closed : List Numbered) :
    List (Numbered × Numbered) :=
  pairs ++ closed.map fun s ↦ (s, (d, ds.length))

section

variable {closed : List Numbered}

theorem mem_extend_old (he : e.2 < ds.length) : (s, e) ∈ extend ds pairs d closed ↔ (s, e) ∈ pairs := by
  constructor
  · intro hmem
    rcases List.mem_append.1 hmem with hmem | hmem
    · exact hmem
    · obtain ⟨s', -, heq⟩ := List.mem_map.1 hmem
      cases heq
      exact absurd he (Nat.lt_irrefl _)
  · exact fun hmem ↦ List.mem_append_left _ hmem

theorem openAt_old (he : e.2 < ds.length) :
    OpenAt (ds ++ [d]) (extend ds pairs d closed) s e ↔ OpenAt ds pairs s e := by
  constructor
  · rintro ⟨hmem, hkind, hlt, hopen⟩
    refine ⟨?_, hkind, hlt, fun e' he' ↦ hopen e' (List.mem_append_left _ he')⟩
    rw [zipIdx_snoc] at hmem
    rcases List.mem_append.1 hmem with hmem | hmem
    · exact hmem
    · cases List.mem_singleton.1 hmem
      exact absurd (Nat.lt_trans hlt he) (Nat.lt_irrefl _)
  · rintro ⟨hmem, hkind, hlt, hopen⟩
    refine ⟨?_, hkind, hlt, fun e' he' ↦ ?_⟩
    · rw [zipIdx_snoc]
      exact List.mem_append_left _ hmem
    · rcases List.mem_append.1 he' with he' | he'
      · exact hopen e' he'
      · obtain ⟨s', -, heq⟩ := List.mem_map.1 he'
        cases heq
        exact Nat.le_of_lt he

end

namespace Paired

variable (h : Paired ds pairs) {closed : List Numbered}

include h

theorem end_lt {p : Numbered × Numbered} (hp : p ∈ pairs) : p.2.2 < ds.length := number_lt (h.ends p hp).1

theorem start_open {p : Numbered × Numbered} (hp : p ∈ pairs) : OpenAt ds pairs p.1 p.2 := by
  obtain ⟨hmem, hkind⟩ := h.ends p hp
  by_cases hfilters : p.2.1.filters = []
  · exact (h.all p.2 hmem hkind hfilters p.1).1 hp
  · exact ((h.latest p.2 hmem hkind hfilters p.1).1 hp).1

theorem mem_extend_new : (s, (d, ds.length)) ∈ extend ds pairs d closed ↔ s ∈ closed := by
  constructor
  · intro hmem
    rcases List.mem_append.1 hmem with hmem | hmem
    · exact absurd (h.end_lt hmem) (Nat.lt_irrefl _)
    · obtain ⟨s', hs', heq⟩ := List.mem_map.1 hmem
      cases heq
      exact hs'
  · intro hs
    exact List.mem_append_right _ (List.mem_map.2 ⟨s, hs, rfl⟩)

theorem openAt_new :
    OpenAt (ds ++ [d]) (extend ds pairs d closed) s (d, ds.length) ↔ s ∈ unclosed ds pairs := by
  rw [mem_unclosed]
  constructor
  · rintro ⟨hmem, hkind, hlt, hopen⟩
    rw [zipIdx_snoc] at hmem
    refine ⟨?_, hkind, fun hclosed ↦ ?_⟩
    · rcases List.mem_append.1 hmem with hmem | hmem
      · exact hmem
      · cases List.mem_singleton.1 hmem
        exact absurd hlt (Nat.lt_irrefl _)
    · obtain ⟨⟨s, e⟩, hp, rfl⟩ := List.mem_map.1 hclosed
      exact absurd (h.end_lt hp) (Nat.not_lt_of_le (hopen e (List.mem_append_left _ hp)))
  · rintro ⟨hmem, hkind, hclosed⟩
    refine ⟨?_, hkind, number_lt hmem, fun e' he' ↦ ?_⟩
    · rw [zipIdx_snoc]
      exact List.mem_append_left _ hmem
    · rcases List.mem_append.1 he' with he' | he'
      · exact absurd (List.mem_map_of_mem he') hclosed
      · obtain ⟨s', -, heq⟩ := List.mem_map.1 he'
        cases heq
        exact Nat.le_refl _

/-- One more directive keeps the pairing, if it closes what its kind and its filters say. -/
theorem snoc (hnodup : closed.Nodup) (hopen : ∀ s ∈ closed, s ∈ unclosed ds pairs)
    (hother : d.kind ≠ .enable → closed = []) (hcloses : d.kind = .enable → Closes (unclosed ds pairs) d closed) :
    Paired (ds ++ [d]) (extend ds pairs d closed) := by
  have hcases : ∀ e ∈ (ds ++ [d]).zipIdx, e ∈ ds.zipIdx ∨ e = (d, ds.length) := by
    intro e he
    rw [zipIdx_snoc] at he
    exact (List.mem_append.1 he).imp id List.mem_singleton.1
  constructor
  case once =>
    have hfst : (extend ds pairs d closed).map Prod.fst = pairs.map Prod.fst ++ closed := by
      simp [extend, Function.comp_def]
    rw [hfst]
    refine h.once.append hnodup fun s hs hs' ↦ ?_
    exact (mem_unclosed.1 (hopen s hs')).2.2 hs
  case ends =>
    intro p hp
    rw [zipIdx_snoc]
    rcases List.mem_append.1 hp with hp | hp
    · exact ⟨List.mem_append_left _ (h.ends p hp).1, (h.ends p hp).2⟩
    · obtain ⟨s, hs, rfl⟩ := List.mem_map.1 hp
      refine ⟨List.mem_append_right _ (List.mem_singleton.2 rfl), ?_⟩
      by_contra hkind
      rw [hother hkind] at hs
      cases hs
  case all =>
    intro e he hkind hfilters s
    rcases hcases e he with he | rfl
    · rw [mem_extend_old (number_lt he), openAt_old (number_lt he)]
      exact h.all e he hkind hfilters s
    · rw [h.mem_extend_new, h.openAt_new]
      exact (hcloses hkind).all hfilters s
  case latest =>
    intro e he hkind hfilters s
    rcases hcases e he with he | rfl
    · simp only [mem_extend_old (number_lt he), openAt_old (number_lt he)]
      exact h.latest e he hkind hfilters s
    · simp only [h.mem_extend_new, h.openAt_new]
      exact (hcloses hkind).latest hfilters s

theorem mem_unclosed_snoc (hopen : ∀ s ∈ closed, s ∈ unclosed ds pairs) :
    s ∈ unclosed (ds ++ [d]) (extend ds pairs d closed) ↔
      (s ∈ unclosed ds pairs ∧ s ∉ closed) ∨ (d.kind = .disable ∧ s = (d, ds.length)) := by
  have hfst : (extend ds pairs d closed).map Prod.fst = pairs.map Prod.fst ++ closed := by
    simp [extend, Function.comp_def]
  rw [mem_unclosed, mem_unclosed, hfst, zipIdx_snoc, List.mem_append, List.mem_append, List.mem_singleton]
  constructor
  · rintro ⟨hs | rfl, hkind, hclosed⟩
    · exact .inl ⟨⟨hs, hkind, fun hp ↦ hclosed (.inl hp)⟩, fun hp ↦ hclosed (.inr hp)⟩
    · exact .inr ⟨hkind, rfl⟩
  · rintro (⟨⟨hs, hkind, hp⟩, hclosed⟩ | ⟨hkind, rfl⟩)
    · exact ⟨.inl hs, hkind, fun hmem ↦ hmem.elim hp hclosed⟩
    · refine ⟨.inr rfl, hkind, ?_⟩
      rintro (hp | hp)
      · obtain ⟨p, hp, heq⟩ := List.mem_map.1 hp
        have hlt := number_lt (h.start_open hp).mem
        rw [heq] at hlt
        exact absurd hlt (Nat.lt_irrefl _)
      · exact absurd (number_lt (mem_unclosed.1 (hopen _ hp)).1) (Nat.lt_irrefl _)

theorem unmatched_snoc : unmatched (ds ++ [d]) (extend ds pairs d closed) =
    unmatched ds pairs ++ (if d.kind = .enable ∧ closed = [] then [(d, ds.length)] else []) := by
  have hsnd : (extend ds pairs d closed).map Prod.snd = pairs.map Prod.snd ++ closed.map fun _ ↦ (d, ds.length) := by
    simp [extend, Function.comp_def]
  have hlt : ∀ e ∈ pairs.map Prod.snd, e.2 < ds.length := by
    intro e he
    obtain ⟨p, hp, rfl⟩ := List.mem_map.1 he
    exact h.end_lt hp
  rw [unmatched, unmatched, hsnd, zipIdx_snoc, List.filter_append]
  congr 1
  · refine List.filter_congr fun e he ↦ ?_
    have hne : e ≠ (d, ds.length) := by
      rintro rfl
      exact absurd (number_lt he) (Nat.lt_irrefl _)
    have hold : e ∈ pairs.map Prod.snd ++ closed.map (fun _ ↦ (d, ds.length)) ↔ e ∈ pairs.map Prod.snd := by
      constructor
      · intro hmem
        rcases List.mem_append.1 hmem with hmem | hmem
        · exact hmem
        · obtain ⟨-, -, rfl⟩ := List.mem_map.1 hmem
          exact absurd rfl hne
      · exact List.mem_append_left _
    rw [List.contains_eq_mem, List.contains_eq_mem, decide_eq_decide.2 hold]
  · have hnew : (d, ds.length) ∉ pairs.map Prod.snd := fun hmem ↦ absurd (hlt _ hmem) (Nat.lt_irrefl _)
    cases closed with
    | nil => by_cases hkind : d.kind = .enable <;> simp_all
    | cons s closed => simp

omit closed in
theorem starts_perm : (pairs.map Prod.fst ++ unclosed ds pairs).Perm (ds.zipIdx.filter (·.1.kind == .disable)) := by
  have hnodup : (pairs.map Prod.fst ++ unclosed ds pairs).Nodup := by
    refine h.once.append ((zipIdx_nodup ds).filter _) fun s hs hs' ↦ ?_
    exact (mem_unclosed.1 hs').2.2 hs
  refine (List.perm_ext_iff_of_nodup hnodup ((zipIdx_nodup ds).filter _)).2 fun s ↦ ?_
  rw [List.mem_append, mem_unclosed, List.mem_filter, beq_iff_eq]
  constructor
  · rintro (hs | ⟨hs, hkind, -⟩)
    · obtain ⟨p, hp, rfl⟩ := List.mem_map.1 hs
      have hopen := h.start_open hp
      exact ⟨hopen.mem, hopen.kind⟩
    · exact ⟨hs, hkind⟩
  · rintro ⟨hs, hkind⟩
    by_cases hclosed : s ∈ pairs.map Prod.fst
    · exact .inl hclosed
    · exact .inr ⟨hs, hkind, hclosed⟩

end Paired

def ofRange (file : String) (p : Numbered × Numbered) : Suppression :=
  ofDirective file p.1.1 .range p.1.1.line p.2.1.line

/-- The progress after the directives of `ds`, which have been paired and of which `opened` are open. -/
structure Traced (book : RuleBook) (file : String) (ds : List Directive) (pairs : List (Numbered × Numbered))
    (opened : List Numbered) (p : Progress) : Prop where
  paired : Paired ds pairs
  listed : p.opened = opened.map Prod.fst
  mem_opened : ∀ s, s ∈ opened ↔ s ∈ unclosed ds pairs
  sorted : opened.Pairwise fun a b ↦ b.2 < a.2
  ranges : p.suppressions.filter (·.kind == .range) = pairs.map (ofRange file)
  errors : p.errors.Perm (ds.flatMap (unknownFilters book) ++
    (unmatched ds pairs).map fun e ↦ ⟨.unmatchedEnd, e.1.span⟩)

namespace Traced

variable {opened : List Numbered} {p : Progress}

theorem start : Traced book file [] [] [] ⟨[], [], []⟩ := by
  refine ⟨⟨List.nodup_nil, ?_, ?_, ?_⟩, rfl, ?_, .nil, rfl, .refl _⟩ <;> simp [unclosed]

def endErrors (d : Directive) (closed : List Numbered) : List SuppressionError :=
  if d.kind = .enable ∧ closed = [] then [⟨.unmatchedEnd, d.span⟩] else []

theorem errors_snoc (h : Traced book file ds pairs opened p) (d : Directive) (closed : List Numbered) :
    (p.errors ++ unknownFilters book d ++ endErrors d closed).Perm ((ds ++ [d]).flatMap (unknownFilters book) ++
      (unmatched (ds ++ [d]) (extend ds pairs d closed)).map fun e ↦ ⟨.unmatchedEnd, e.1.span⟩) := by
  have hnew : (if d.kind = .enable ∧ closed = [] then [(d, ds.length)] else []).map
      (fun e : Numbered ↦ (⟨.unmatchedEnd, e.1.span⟩ : SuppressionError)) = endErrors d closed := by
    rw [endErrors]
    split <;> rfl
  rw [h.paired.unmatched_snoc, List.map_append, hnew, List.flatMap_append, List.flatMap_singleton]
  have hfront := (h.errors.append_right (unknownFilters book d)).append_right (endErrors d closed)
  rw [List.append_assoc (ds.flatMap _)] at hfront
  refine hfront.trans (((List.perm_append_comm.append_left _).append_right _).trans ?_)
  simp only [List.append_assoc]
  exact .refl _

theorem keep (h : Traced book file ds pairs opened p) (hend : d.kind ≠ .enable) :
    Paired (ds ++ [d]) pairs ∧
      (∀ s, s ∈ unclosed (ds ++ [d]) pairs ↔ s ∈ opened ∨ (d.kind = .disable ∧ s = (d, ds.length))) ∧
      (p.errors ++ unknownFilters book d).Perm ((ds ++ [d]).flatMap (unknownFilters book) ++
        (unmatched (ds ++ [d]) pairs).map fun e ↦ ⟨.unmatchedEnd, e.1.span⟩) := by
  have hsame : extend ds pairs d [] = pairs := List.append_nil pairs
  have hnone : ∀ s ∈ ([] : List Numbered), s ∈ unclosed ds pairs := by simp
  have hpaired := h.paired.snoc .nil hnone (fun _ ↦ rfl) fun hkind ↦ absurd hkind hend
  have hmem (s : Numbered) := h.paired.mem_unclosed_snoc (d := d) (s := s) hnone
  have herrors := h.errors_snoc d []
  rw [endErrors, if_neg fun hd ↦ hend hd.1, List.append_nil] at herrors
  rw [hsame] at hpaired hmem herrors
  refine ⟨hpaired, fun s ↦ ?_, herrors⟩
  rw [hmem, h.mem_opened]
  simp

theorem single (h : Traced book file ds pairs opened p) (hstart : d.kind ≠ .disable) (hend : d.kind ≠ .enable)
    {s : Suppression} (hs : s.kind ≠ .range) : Traced book file (ds ++ [d]) pairs opened
      ⟨p.suppressions ++ [s], p.errors ++ unknownFilters book d, p.opened⟩ := by
  obtain ⟨hpaired, hmem, herrors⟩ := h.keep hend
  refine ⟨hpaired, h.listed, fun t ↦ ?_, h.sorted, ?_, herrors⟩
  · simp [hmem, hstart]
  · simp [h.ranges, hs]

theorem disable (h : Traced book file ds pairs opened p) (hkind : d.kind = .disable) :
    Traced book file (ds ++ [d]) pairs ((d, ds.length) :: opened)
      ⟨p.suppressions, p.errors ++ unknownFilters book d, d :: p.opened⟩ := by
  have hend : d.kind ≠ .enable := by
    rw [hkind]
    decide
  obtain ⟨hpaired, hmem, herrors⟩ := h.keep hend
  refine ⟨hpaired, ?_, fun t ↦ ?_, ?_, h.ranges, herrors⟩
  · rw [List.map_cons, h.listed]
  · simp [hmem, hkind, or_comm]
  · refine List.pairwise_cons.2 ⟨fun t ht ↦ ?_, h.sorted⟩
    exact number_lt (mem_unclosed.1 ((h.mem_opened t).1 ht)).1

theorem enable (h : Traced book file ds pairs opened p) (hkind : d.kind = .enable) :
    ∃ pairs' opened', Traced book file (ds ++ [d]) pairs' opened'
      ⟨p.suppressions ++ (close d p.opened).1.map (fun start ↦ ofDirective file start .range start.line d.line),
        p.errors ++ unknownFilters book d ++ (if (close d p.opened).1.isEmpty then [⟨.unmatchedEnd, d.span⟩] else []),
        (close d p.opened).2⟩ := by
  obtain ⟨closed, rest, hclose, hcloses, hperm, hsub⟩ := exists_close d h.sorted
  rw [h.listed, hclose]
  have hnodup : (closed ++ rest).Nodup :=
    hperm.nodup_iff.2 (h.sorted.imp fun hlt heq ↦ by rw [heq] at hlt; exact Nat.lt_irrefl _ hlt)
  obtain ⟨hclosed, -, hdisjoint⟩ := List.nodup_append.1 hnodup
  have hopen : ∀ s ∈ closed, s ∈ unclosed ds pairs := by
    intro s hs
    exact (h.mem_opened s).1 (hperm.mem_iff.1 (List.mem_append_left _ hs))
  have hcloses' : Closes (unclosed ds pairs) d closed := by
    constructor
    · intro hfilters s
      rw [hcloses.all hfilters, h.mem_opened]
    · intro hfilters s
      simp only [hcloses.latest hfilters, h.mem_opened]
  refine ⟨extend ds pairs d closed, rest, ?_⟩
  constructor
  case paired => exact h.paired.snoc hclosed hopen (fun hne ↦ absurd hkind hne) fun _ ↦ hcloses'
  case listed => rfl
  case mem_opened =>
    intro s
    have hnot : d.kind ≠ .disable := by
      rw [hkind]
      decide
    rw [h.paired.mem_unclosed_snoc hopen, ← h.mem_opened, ← hperm.mem_iff, List.mem_append]
    constructor
    · intro hs
      exact .inl ⟨.inr hs, fun hc ↦ hdisjoint s hc s hs rfl⟩
    · rintro (⟨hs | hs, hc⟩ | ⟨hd, -⟩)
      · exact absurd hs hc
      · exact hs
      · exact absurd hd hnot
  case sorted => exact h.sorted.sublist hsub
  case ranges => simp [h.ranges, extend, ofRange, ofDirective, Function.comp_def, List.filter_map]
  case errors =>
    have herrors := h.errors_snoc d closed
    cases closed with
    | nil => simpa [endErrors, hkind] using herrors
    | cons s closed => simpa [endErrors] using herrors

theorem step (h : Traced book file ds pairs opened p) (d : Directive) :
    ∃ pairs' opened', Traced book file (ds ++ [d]) pairs' opened' (step book file p d) := by
  unfold Suppression.step
  cases hkind : d.kind with
  | ignore =>
    refine ⟨pairs, opened, h.single (by simp [hkind]) (by simp [hkind]) ?_⟩
    dsimp only [ofDirective]
    split <;> decide
  | ignoreNextLine => exact ⟨pairs, opened, h.single (by simp [hkind]) (by simp [hkind]) (by simp [ofDirective])⟩
  | ignoreFile => exact ⟨pairs, opened, h.single (by simp [hkind]) (by simp [hkind]) (by simp [ofDirective])⟩
  | disable => exact ⟨pairs, _, h.disable hkind⟩
  | enable => exact h.enable hkind

theorem foldl (h : Traced book file ds pairs opened p) (more : List Directive) :
    ∃ pairs' opened', Traced book file (ds ++ more) pairs' opened' (more.foldl (Suppression.step book file) p) := by
  induction more generalizing ds pairs opened p with
  | nil => exact ⟨pairs, opened, by rwa [List.append_nil]⟩
  | cons d more ih =>
    obtain ⟨pairs', opened', h'⟩ := h.step d
    have hrest := ih h'
    rwa [List.append_assoc] at hrest

theorem opened_perm (h : Traced book file ds pairs opened p) : opened.Perm (unclosed ds pairs) := by
  refine (List.perm_ext_iff_of_nodup ?_ ((zipIdx_nodup ds).filter _)).2 h.mem_opened
  exact h.sorted.imp fun hlt heq ↦ by rw [heq] at hlt; exact Nat.lt_irrefl _ hlt

end Traced

theorem unknownFilters_eq (h : book.entries ≠ []) (d : Directive) :
    unknownFilters book d = (strangers book d).map fun f ↦ ⟨.unknownRule f, d.span⟩ := by
  unfold unknownFilters strangers
  congr 1
  refine List.filter_congr fun f _ ↦ ?_
  rw [RuleBook.knowsFilter]
  by_cases hall : f = "*"
  · -- The filter `*` names whatever rule there is.
    obtain ⟨entry, rest, hentries⟩ := List.exists_cons_of_ne_nil h
    simp [hall, hentries, filterNames]
  · simp [hall, List.not_any_eq_all_not]

/-- What is wrong with directives whose ranges are so paired. -/
def faults (book : RuleBook) (ds : List Directive) (pairs : List (Numbered × Numbered)) : List SuppressionError :=
  ds.flatMap (fun d ↦ (strangers book d).map fun f ↦ ⟨.unknownRule f, d.span⟩) ++
    (unmatched ds pairs).map (fun e ↦ ⟨.unmatchedEnd, e.1.span⟩) ++
    (unclosed ds pairs).map fun s ↦ ⟨.unterminated, s.1.span⟩

theorem countP_faults (book : RuleBook) (ds : List Directive) (pairs : List (Numbered × Numbered)) :
    (faults book ds pairs).countP (·.fault == .unterminated) = (unclosed ds pairs).length := by
  have hunknown : (ds.flatMap fun d ↦ (strangers book d).map fun f ↦
      (⟨.unknownRule f, d.span⟩ : SuppressionError)).countP (·.fault == .unterminated) = 0 := by
    refine List.countP_eq_zero.2 fun e he ↦ ?_
    obtain ⟨d, -, he⟩ := List.mem_flatMap.1 he
    obtain ⟨f, -, rfl⟩ := List.mem_map.1 he
    simp
  have hend : ((unmatched ds pairs).map fun e ↦ (⟨.unmatchedEnd, e.1.span⟩ : SuppressionError)).countP
      (·.fault == .unterminated) = 0 := by
    refine List.countP_eq_zero.2 fun e he ↦ ?_
    obtain ⟨d, -, rfl⟩ := List.mem_map.1 he
    simp
  have hstart : ((unclosed ds pairs).map fun s ↦ (⟨.unterminated, s.1.span⟩ : SuppressionError)).countP
      (·.fault == .unterminated) = ((unclosed ds pairs).map fun s ↦
        (⟨.unterminated, s.1.span⟩ : SuppressionError)).length := by
    refine List.countP_eq_length.2 fun e he ↦ ?_
    obtain ⟨d, -, rfl⟩ := List.mem_map.1 he
    simp
  rw [faults, List.countP_append, List.countP_append, hunknown, hend, hstart, List.length_map, Nat.zero_add]

theorem resolve_paired (h : book.entries ≠ []) (file : String) (ds : List Directive) :
    ∃ pairs, Paired ds pairs ∧ (resolve book file ds).1.filter (·.kind == .range) = pairs.map (ofRange file) ∧
      (resolve book file ds).2.Perm (faults book ds pairs) := by
  have hstart : Traced book file [] [] [] ⟨[], [], []⟩ := Traced.start
  obtain ⟨pairs, opened, htraced⟩ := hstart.foldl ds
  rw [List.nil_append] at htraced
  refine ⟨pairs, htraced.paired, htraced.ranges, ?_⟩
  rw [faults, ← funext (unknownFilters_eq h)]
  refine (List.mergeSort_perm _ _).trans (htraced.errors.append ?_)
  rw [htraced.listed, ← List.map_reverse, List.map_map]
  exact ((List.reverse_perm opened).trans htraced.opened_perm).map _

end CodeStyle.Suppression
