import CodeStyle.Proofs.Coverage
import CodeStyle.Proofs.ElseIfChains
import CodeStyle.Proofs.OwnTokens

/-!
What lies around what. Two nodes of a tree that have a token in common lie one around the other, and the
nodes above a node are those around it. A block starts with a brace that no node inside of it has, so that
blocks which lie around each other are told apart by where they start.
-/

namespace CodeStyle

/-- A block over the nodes `inner`: its first token is a brace, and they come behind it. -/
structure NodeHead.Bracketed (P : Focus → Prop) (h : NodeHead) (inner : List NodeHead) : Prop where
  brace : ∃ f, P f ∧ f.index = h.start ∧ ¬Braces.Plain f
  inner : ∀ c ∈ inner, h.start < c.start

theorem Outline.Within.starts {P : NodeHead → Prop} {low high : Nat} {os : List Outline} (h : Within P low high os) :
    ∀ o ∈ os, low ≤ o.head.start := by
  induction h with
  | nil => simp
  | cons hlow hne _ _ _ _ ih =>
    refine List.forall_mem_cons.2 ⟨hlow, fun o ho ↦ ?_⟩
    have := ih o ho
    omega

theorem Braces.not_plain_of_open {f : Focus} (hf : f.token.isPunct "\x7b" = true) : ¬Plain f := by
  intro hplain
  rw [hplain.1] at hf
  cases hf

theorem Braces.not_plain_of_close {f : Focus} (hf : f.token.isPunct "\x7d" = true) : ¬Plain f := by
  intro hplain
  rw [hplain.2] at hf
  cases hf

theorem Braces.isCode_of_not_plain {f : Focus} (h : ¬Plain f) : f.isCode = true := by
  by_contra hnot
  exact h (plain_of_not_isCode (by simpa using hnot))

theorem ItemDraft.of_isItem (inFunction : Bool) (first : Focus) (rest : List Focus) :
    (of inFunction first rest).kind.isItem = true := by
  unfold of
  split
  · rfl
  · split
    · dsimp only [plain]
      split <;> rfl
    · have hkind := statement_kind_mem inFunction first rest
      simp only [List.mem_cons, List.not_mem_nil, or_false] at hkind
      rcases hkind with hkind | hkind | hkind | hkind | hkind <;> rw [hkind] <;> rfl

namespace Outline

variable {P : Focus → Prop} {i n : Nat} {region : List Focus}

/-- What is read behind a brace starts behind it, also where nothing is read. -/
theorem behind_brace {deep : Prop} [Decidable deep] {depth : Nat} {inFunction recovering : Bool}
    (hc : Focus.Consecutive (i + 1) region) :
    ∀ o ∈ (if deep then Forest.empty else forest depth inFunction recovering region).nodes, i < o.head.start := by
  split
  · simp [Forest.empty]
  · exact (forest_sound (Q := fun _ ↦ True) depth inFunction recovering hc fun _ _ ↦ trivial).nodes.starts

theorem bracketed_node {h : NodeHead} {f : Focus} {os : List Outline} (hf : P f) (hbrace : ¬Braces.Plain f)
    (hstart : h.start = f.index) (hos : ∀ o ∈ os, f.index < o.head.start) :
    h.Bracketed P (os.map head) := by
  refine ⟨⟨f, hf, hstart.symm, hbrace⟩, fun c hin ↦ ?_⟩
  obtain ⟨o, ho, rfl⟩ := List.mem_map.1 hin
  exact hstart ▸ hos o ho

/-- The nodes of a region are items and blocks, and a block starts with a brace in front of all that is in it. -/
theorem forest_bracketed (depth : Nat) (inFunction recovering : Bool) (hc : Focus.Consecutive i region)
    (hP : ∀ f ∈ region, P f) :
    ∀ o ∈ preorderAll (forest depth inFunction recovering region).nodes, o.head.kind.isItem = true ∨
      o.head.kind = .braceBlock ∧ o.head.Bracketed P (o.children.map head) := by
  fun_induction forest depth inFunction recovering region generalizing i with
  | case1 => simp [Forest.empty]
  | case2 _ _ _ f rest =>
    rename_i ih
    exact ih hc.tail fun q hq ↦ hP q (by simp [hq])
  | case3 _ _ f rest =>
    rename_i ih
    exact ih hc.tail fun q hq ↦ hP q (by simp [hq])
  | case4 depth inFunction _ f rest _ hf =>
    rename_i ih
    intro o ho
    rw [Forest.append, List.nil_append, Forest.recovered, preorderAll_singleton] at ho
    rcases List.mem_cons.1 ho with rfl | ho
    · right
      have hbehind := forest_sound (Q := fun _ ↦ True) depth inFunction true hc.tail fun _ _ ↦ trivial
      refine ⟨rfl, bracketed_node (hP f (by simp)) (Braces.not_plain_of_close hf) rfl ?_⟩
      rw [hc.head]
      exact hbehind.nodes.starts
    · exact ih hc.tail (fun q hq ↦ hP q (by simp [hq])) o ho
  | case5 _ inFunction _ f rest _ _ hf g content ihInside =>
    rename_i ihRest
    intro o ho
    rw [Forest.append, preorderAll_append, Forest.block, preorderAll_singleton] at ho
    rcases List.mem_append.1 ho with ho | ho
    · rcases List.mem_cons.1 ho with rfl | ho
      · right
        have hopening : g.opening = f := BraceGroup.of_opening ..
        refine ⟨rfl, bracketed_node (hP f (by simp)) (Braces.not_plain_of_open hf) (congrArg Focus.index hopening) ?_⟩
        rw [hc.head]
        exact behind_brace (hc.tail.take _)
      · unfold content at ho
        split at ho
        · cases ho
        · exact ihInside (hc.tail.take _) (fun q hq ↦ hP q (by simp [List.mem_of_mem_take hq])) o ho
    · exact ihRest (hc.tail.drop _) (fun q hq ↦ hP q (by simp [List.mem_of_mem_drop hq])) o ho
  | case6 _ inFunction _ f rest hread hclose hopen d blocks ihInside =>
    rename_i ihRest
    intro o ho
    rw [Forest.append, preorderAll_append] at ho
    rcases List.mem_append.1 ho with ho | ho
    · rw [Forest.item, preorderAll_singleton] at ho
      rcases List.mem_cons.1 ho with rfl | ho
      · exact .inl (ItemDraft.of_isItem _ _ _)
      · have hplain : Braces.Plain f := ⟨by simpa using hopen, by simpa using hclose⟩
        obtain ⟨t, ht, ho⟩ := Forest.mem_nodes_foldl.1 ho
        obtain ⟨g, hg, rfl⟩ := List.mem_map.1 ht
        rw [Forest.block, preorderAll_singleton] at ho
        rcases List.mem_cons.1 ho with rfl | ho
        · right
          have hbraced := ItemDraft.of_braced hc hplain inFunction
          have hsound : d.Sound (fun _ ↦ True) i (rest.length + 1) :=
            ItemDraft.of_sound ⟨hc, fun _ _ ↦ trivial, Nat.zero_add _⟩ inFunction
          obtain ⟨hmem, hbrace⟩ := (hbraced.records.fits g hg).opening
          refine ⟨rfl, bracketed_node (hP _ (List.mem_of_mem_take hmem)) (Braces.not_plain_of_open hbrace) rfl ?_⟩
          rw [hsound.groups.at_skip g hg]
          have hahead := (hc.tail.drop g.skip).take g.inside
          rw [Nat.add_right_comm] at hahead
          exact behind_brace hahead
        · split at ho
          · cases ho
          · exact ihInside g ((hc.tail.drop _).take _)
              (fun q hq ↦ hP q (by simp [List.mem_of_mem_drop (List.mem_of_mem_take hq)])) o ho
    · exact ihRest (hc.tail.drop _) (fun q hq ↦ hP q (by simp [List.mem_of_mem_drop hq])) o ho

end Outline

namespace Tree

variable {P : Focus → Prop} {ts : List Tree}

/-- A conditional starts where the first of its members does. -/
theorem Grouping.starts_foldl {g : Grouping} :
    ∀ t ∈ (ts.foldl step g).siblings, ∃ u ∈ g.siblings ++ ts, t.start = u.start := by
  induction ts generalizing g with
  | nil =>
    rw [List.append_nil]
    exact fun t ht ↦ ⟨t, ht, rfl⟩
  | cons t ts ih =>
    intro u hu
    obtain ⟨w, hw, hstart⟩ := ih u hu
    rw [List.append_cons]
    rcases List.mem_append.1 hw with hw | hw
    · rcases g.step_cases t with ⟨hs, -⟩ | ⟨front, members, hg, hs, -⟩
      · rw [hs] at hw
        exact ⟨w, List.mem_append_left _ hw, hstart⟩
      · rw [hs] at hw
        rw [hg, List.append_assoc front]
        rcases List.mem_append.1 hw with hw | hw
        · exact ⟨w, List.mem_append_left _ (List.mem_append_left _ hw), hstart⟩
        · cases List.mem_singleton.1 hw
          obtain ⟨first, rest, he⟩ := List.exists_cons_of_ne_nil (List.concat_ne_nil t members)
          rw [he] at hstart ⊢
          exact ⟨first, List.mem_append_left _ (List.mem_append_right _ (List.mem_cons_self ..)), hstart⟩
    · exact ⟨w, List.mem_append_right _ hw, hstart⟩

mutual

/-- Grouping takes no node of a block to its front. -/
theorem regroup_bracketed (next : Nat) (t : Tree)
    (h : ∀ u ∈ t.preorder, u.kind = .braceBlock → u.head.Bracketed P (u.children.map head)) :
    ∀ u ∈ (regroup next t).1.preorder, u.kind = .braceBlock → u.head.Bracketed P (u.children.map head) := by
  cases t with
  | node id top children =>
    rw [preorder_eq_cons, List.forall_mem_cons] at h
    intro u hu hkind
    rcases mem_preorder_iff.1 hu with rfl | ⟨c, hc, hu⟩
    · have htop : top.Bracketed P (children.map head) := h.1 hkind
      refine ⟨htop.brace, fun c hin ↦ ?_⟩
      obtain ⟨t, ht, rfl⟩ := List.mem_map.1 hin
      obtain ⟨w, hw, hstart⟩ := Grouping.starts_foldl t ht
      have hhead : w.head ∈ (regroupAll (group next children).next children).1.map head := List.mem_map_of_mem hw
      rw [heads_regroupAll] at hhead
      exact Nat.lt_of_lt_of_eq (htop.inner w.head hhead) hstart.symm
    · rcases Grouping.mem_foldl (List.mem_flatMap.2 ⟨c, hc, hu⟩) with hnew | hu
      · rw [hnew] at hkind
        cases hkind
      · exact regroupAll_bracketed _ children h.2 u hu hkind

theorem regroupAll_bracketed (next : Nat) (ts : List Tree)
    (h : ∀ u ∈ ts.flatMap preorder, u.kind = .braceBlock → u.head.Bracketed P (u.children.map head)) :
    ∀ u ∈ (regroupAll next ts).1.flatMap preorder, u.kind = .braceBlock →
      u.head.Bracketed P (u.children.map head) := by
  cases ts with
  | nil => simp [regroupAll]
  | cons t ts =>
    rw [List.flatMap_cons, List.forall_mem_append] at h
    rw [regroupAll, List.flatMap_cons, List.forall_mem_append]
    exact ⟨regroup_bracketed next t h.1, regroupAll_bracketed _ ts h.2⟩

end

theorem bracketed_ofFoci (tokens : List Token) :
    ∀ t ∈ (ofOutline (Outline.ofFoci (Focus.all tokens)).1).preorder, t.kind = .braceBlock →
      t.head.Bracketed (· ∈ Focus.all tokens) (t.children.map head) := by
  refine regroup_bracketed _ _
    (number_nodes (Q := fun h inner ↦ h.kind = .braceBlock → h.Bracketed (· ∈ Focus.all tokens) inner) _ _ ?_)
  intro o ho hkind
  rcases Outline.mem_preorder_ofFoci.1 ho with rfl | ho
  · cases hkind
  · rcases Outline.forest_bracketed 0 false false (Focus.all_consecutive tokens) (fun _ hf ↦ hf) o ho with hitem | h
    · rw [hkind] at hitem
      cases hitem
    · exact h.2

/-- Only the root stands for the whole file. -/
theorem eq_root_of_kind {tokens : List Token} {t : Tree}
    (ht : t ∈ (ofOutline (Outline.ofFoci (Focus.all tokens)).1).preorder) (hkind : t.kind = .translationUnit) :
    t = ofOutline (Outline.ofFoci (Focus.all tokens)).1 := by
  have hall := Focus.all_consecutive tokens
  have hread := (Outline.forest_sound (Q := fun _ ↦ True) 0 false false hall fun _ _ ↦ trivial).nodes.of_heads
    (R := fun h ↦ h.kind ≠ .translationUnit) fun o ho hkind ↦ by
      rcases Outline.forest_bracketed (P := fun _ ↦ True) 0 false false hall (fun _ _ ↦ trivial) o ho with h | h
      · rw [hkind] at h
        cases h
      · exact absurd (hkind.symm.trans h.1) (by decide)
  rcases mem_preorder_iff.1 ht with rfl | ⟨c, hc, ht⟩
  · rfl
  · have hwithin : Within (fun h ↦ h.kind ≠ .translationUnit) _ _
        (ofOutline (Outline.ofFoci (Focus.all tokens)).1).children :=
      ofOutline_within (fun _ _ ↦ by simp [NodeHead.plain]) hread
    exact absurd hkind (hwithin.of_mem hc ht).2.2.2.1

section

variable {root t u : Tree} {v w : Visit} {above : List Tree} {i : Nat}

/-- The nodes below a node that is visited are visited as well. -/
theorem visits_subset (hv : v ∈ root.visits above) : v.tree.visits v.above ⊆ root.visits above := by
  induction root using induct generalizing above with
  | node id head children ih =>
    intro w hw
    rw [visits_eq_cons] at hv
    rcases List.mem_cons.1 hv with rfl | hv
    · exact hw
    · obtain ⟨c, hc, hv⟩ := List.mem_flatMap.1 hv
      rw [visits_eq_cons]
      exact List.mem_cons_of_mem _ (List.mem_flatMap.2 ⟨c, hc, ih c hc hv hw⟩)

theorem preorder_subset (ht : t ∈ root.preorder) : t.preorder ⊆ root.preorder := by
  obtain ⟨v, hv, rfl⟩ := List.mem_map.1 ht
  rw [← map_tree_visits v.above v.tree]
  exact List.map_subset _ (visits_subset hv)

theorem above_subset (hv : v ∈ root.visits above) : above ⊆ v.above := by
  induction root using induct generalizing above with
  | node id head children ih =>
    rw [visits_eq_cons] at hv
    rcases List.mem_cons.1 hv with rfl | hv
    · exact List.Subset.refl _
    · obtain ⟨c, hc, hv⟩ := List.mem_flatMap.1 hv
      exact fun p hp ↦ ih c hc hv (List.mem_cons_of_mem _ hp)

/-- The way up from a node goes through nodes around it. -/
theorem visit_of_above {front rest : List Tree} (hv : v ∈ root.visits []) (ha : v.above = front ++ u :: rest) :
    ⟨u, rest⟩ ∈ root.visits [] ∧ ∃ c ∈ u.children, v.tree ∈ c.preorder := by
  induction front generalizing v with
  | nil =>
    rcases mem_visits hv with rfl | ⟨p, rest', hp, hm, hvisit⟩
    · cases ha
    · obtain ⟨rfl, rfl⟩ := List.cons.inj (ha.symm.trans hp)
      exact ⟨hvisit, _, hm, self_mem_preorder _⟩
  | cons p front ih =>
    rcases mem_visits hv with rfl | ⟨p', rest', hp, hm, hvisit⟩
    · cases ha
    · obtain ⟨rfl, rfl⟩ := List.cons.inj (ha.symm.trans hp)
      obtain ⟨hup, c, hc, hin⟩ := ih hvisit rfl
      exact ⟨hup, c, hc, child_mem_preorder hin hm⟩

theorem below_of_above (hv : v ∈ root.visits []) (hu : u ∈ v.above) :
    u ∈ root.preorder ∧ ∃ c ∈ u.children, v.tree ∈ c.preorder := by
  obtain ⟨front, rest, ha⟩ := List.append_of_mem hu
  obtain ⟨hup, hbelow⟩ := visit_of_above hv ha
  exact ⟨List.mem_map_of_mem hup, hbelow⟩

theorem mem_preorder_of_above (hv : v ∈ root.visits []) (hu : u ∈ v.above) :
    u ∈ root.preorder ∧ v.tree ∈ u.preorder :=
  ⟨(below_of_above hv hu).1, mem_preorder_iff.2 (.inr (below_of_above hv hu).2)⟩

/-- Of two nodes with a token in common one lies around the other. -/
theorem mem_or_above {P : NodeHead → Prop} (h : ∀ t ∈ root.preorder, Within P t.start t.stop t.children)
    (hv : v ∈ root.visits above) (hu : u ∈ root.preorder) (hvi : v.tree.covers i = true) (hui : u.covers i = true) :
    u ∈ v.tree.preorder ∨ u ∈ v.above := by
  induction root using induct generalizing above with
  | node id head children ih =>
    have hroot := h _ (self_mem_preorder _)
    have inside {c w : Tree} (hc : c ∈ children) (hw : w ∈ c.preorder) (hi : w.covers i = true) :
        c.start ≤ i ∧ i < c.stop := by
      obtain ⟨hstart, hstop⟩ := hroot.range_of_mem hc hw
      have hcovers := covers_iff.1 hi
      omega
    rw [visits_eq_cons] at hv
    rcases List.mem_cons.1 hv with rfl | hv
    · exact .inl hu
    · obtain ⟨c, hc, hv⟩ := List.mem_flatMap.1 hv
      rcases mem_preorder_iff.1 hu with rfl | ⟨c', hc', hu⟩
      · exact .inr (above_subset hv (List.mem_cons_self ..))
      · have hvc : v.tree ∈ c.preorder := map_tree_visits _ c ▸ List.mem_map_of_mem hv
        obtain rfl := hroot.eq_of_index hc hc' (inside hc hvc hvi) (inside hc' hu hui)
        exact ih c hc (fun t ht ↦ h t (mem_preorder_iff.2 (.inr ⟨c, hc, ht⟩))) hv hu

end

end Tree

namespace Focus

/-- The tokens of a file from one index up to another. -/
def stretch (all : List Focus) (start stop : Nat) : List Focus := (all.drop start).take (stop - start)

variable {all : List Focus} {start stop : Nat}

theorem stretch_placed (all : List Focus) (start stop : Nat) : Placed all start (stretch all start stop) := by
  have hplaced := ((Placed.self all).drop start).take (stop - start)
  rwa [Nat.zero_add] at hplaced

theorem mem_stretch (hall : Consecutive 0 all) {f : Focus} :
    f ∈ stretch all start stop ↔ f ∈ all ∧ start ≤ f.index ∧ f.index < stop := by
  have hplaced := stretch_placed all start stop
  have hlength : (stretch all start stop).length = min (stop - start) (all.length - start) := by
    rw [stretch, List.length_take, List.length_drop]
  constructor
  · intro hf
    obtain ⟨hlow, hhigh⟩ := (hplaced.consecutive hall).index_mem hf
    exact ⟨hplaced.mem_all hf, hlow, by omega⟩
  · rintro ⟨hf, hlow, hhigh⟩
    have hlt := (hall.index_mem hf).2
    exact hplaced.mem hall hf hlow (by omega)

theorem stretch_append {mid : Nat} (hlow : start ≤ mid) (hhigh : mid ≤ stop) :
    stretch all start stop = stretch all start mid ++ stretch all mid stop := by
  rw [stretch, stretch, stretch, show stop - start = mid - start + (stop - mid) by omega, List.take_add, List.drop_drop,
    Nat.add_sub_cancel' hlow]

theorem stretch_cons (hall : Consecutive 0 all) {f : Focus} (hf : f ∈ all) (hlt : f.index < stop) :
    stretch all f.index stop = f :: stretch all (f.index + 1) stop := by
  obtain ⟨j, hj⟩ := List.mem_iff_getElem?.1 hf
  obtain rfl : f.index = j := (hall j f hj).trans (Nat.zero_add j)
  obtain ⟨hlength, hget⟩ := List.getElem?_eq_some_iff.1 hj
  have hcount : stop - f.index = stop - (f.index + 1) + 1 := by omega
  rw [stretch, stretch, List.drop_eq_getElem_cons hlength, hget, hcount, List.take_succ_cons]

theorem Consecutive.sorted {i : Nat} {region : List Focus} (h : Consecutive i region) :
    region.Pairwise fun f q ↦ f.index < q.index := by
  induction region generalizing i with
  | nil => exact .nil
  | cons f rest ih =>
    refine .cons (fun q hq ↦ ?_) (ih h.tail)
    rw [h.head]
    exact (h.tail.index_mem hq).1

/-- The first code behind a token. -/
structure NextCode (all : List Focus) (f q : Focus) : Prop where
  lt : f.index < q.index
  isCode : q.isCode = true
  between : ∀ r ∈ all, f.index < r.index → r.index < q.index → r.isCode = false

instance (all : List Focus) (f q : Focus) : Decidable (NextCode all f q) :=
  decidable_of_iff (f.index < q.index ∧ q.isCode = true ∧
      ∀ r ∈ all, f.index < r.index → r.index < q.index → r.isCode = false)
    ⟨fun h ↦ ⟨h.1, h.2.1, h.2.2⟩, fun h ↦ ⟨h.lt, h.isCode, h.between⟩⟩

theorem exists_nextCode {f q : Focus} (hq : q ∈ all) (hlt : f.index < q.index) (hcode : q.isCode = true) :
    ∃ r ∈ all, NextCode all f r ∧ r.index ≤ q.index := by
  induction hn : q.index using Nat.strong_induction_on generalizing q with
  | _ n ih =>
    subst hn
    by_cases hcloser : ∃ r ∈ all, f.index < r.index ∧ r.index < q.index ∧ r.isCode = true
    · obtain ⟨r, hr, hlow, hhigh, hcode⟩ := hcloser
      obtain ⟨t, ht, hnext, hle⟩ := ih r.index hhigh hr hlow hcode rfl
      exact ⟨t, ht, hnext, Nat.le_trans hle (Nat.le_of_lt hhigh)⟩
    · refine ⟨q, hq, ⟨hlt, hcode, fun r hr hlow hhigh ↦ ?_⟩, Nat.le_refl _⟩
      exact Bool.eq_false_iff.2 fun hcode ↦ hcloser ⟨r, hr, hlow, hhigh, hcode⟩

theorem find?_isCode {f q : Focus} {rest : List Focus} (h : (f :: rest).Pairwise fun f q ↦ f.index < q.index) :
    rest.find? isCode = some q ↔ q ∈ rest ∧ NextCode (f :: rest) f q := by
  obtain ⟨hfirst, hrest⟩ := List.pairwise_cons.1 h
  constructor
  · intro hfind
    obtain ⟨hcode, front, back, rfl, hfront⟩ := List.find?_eq_some_iff_append.1 hfind
    refine ⟨by simp, hfirst q (by simp), hcode, fun r hr hlow hhigh ↦ ?_⟩
    obtain ⟨-, hback, -⟩ := List.pairwise_append.1 hrest
    rcases List.mem_cons.1 hr with rfl | hr
    · exact absurd hlow (Nat.lt_irrefl _)
    · rcases List.mem_append.1 hr with hr | hr
      · simpa using hfront r hr
      · rcases List.mem_cons.1 hr with rfl | hr
        · exact absurd hhigh (Nat.lt_irrefl _)
        · exact absurd hhigh (Nat.lt_asymm ((List.pairwise_cons.1 hback).1 r hr))
  · rintro ⟨hq, hnext⟩
    obtain ⟨front, back, rfl⟩ := List.append_of_mem hq
    refine List.find?_eq_some_iff_append.2 ⟨hnext.isCode, front, back, rfl, fun r hr ↦ ?_⟩
    have hlt := (List.pairwise_append.1 hrest).2.2 r hr q (by simp)
    rw [hnext.between r (by simp [hr]) (hfirst r (by simp [hr])) hlt]
    rfl

end Focus

namespace Analysis

variable {s : Source} {t u : Tree} {v : Visit} {i : Nat}

theorem range_of_mem (ht : t ∈ (of s).preorder) (hu : u ∈ t.preorder) : t.start ≤ u.start ∧ u.stop ≤ t.stop := by
  rcases Tree.mem_preorder_iff.1 hu with rfl | ⟨c, hc, hu⟩
  · exact ⟨Nat.le_refl _, Nat.le_refl _⟩
  · obtain ⟨hstart, -, hstop, -⟩ := (Tree.within_node ht).of_mem hc hu
    exact ⟨hstart, hstop⟩

theorem covers_of_mem (ht : t ∈ (of s).preorder) (hu : u ∈ t.preorder) (hi : u.covers i = true) :
    t.covers i = true := by
  obtain ⟨hstart, hstop⟩ := range_of_mem ht hu
  have hcovers := Tree.covers_iff.1 hi
  exact Tree.covers_iff.2 ⟨by omega, by omega⟩

theorem mem_or_above (hv : v ∈ (of s).visits) (hu : u ∈ (of s).preorder) (hvi : v.tree.covers i = true)
    (hui : u.covers i = true) : u ∈ v.tree.preorder ∨ u ∈ v.above :=
  Tree.mem_or_above (fun _ ht ↦ Tree.within_node ht) hv hu hvi hui

/-- A node of a block that starts where the block does is the block. -/
theorem eq_of_block_start (ht : t ∈ (of s).preorder) (hkind : t.kind = .braceBlock) (hu : u ∈ t.preorder)
    (hstart : u.start ≤ t.start) : u = t := by
  rcases Tree.mem_preorder_iff.1 hu with rfl | ⟨c, hc, hu⟩
  · rfl
  · have hbehind := (Tree.bracketed_ofFoci s.tokens t ht hkind).inner c.head (List.mem_map_of_mem hc)
    have hle := (range_of_mem (Tree.child_mem_preorder ht hc) hu).1
    exact absurd hbehind (Nat.not_lt.2 (Nat.le_trans hle hstart))

/-- The whole file lies in no block. -/
theorem ne_root_of_block (ht : t ∈ (of s).preorder) (hkind : t.kind = .braceBlock) (hu : u ∈ t.preorder) :
    u ≠ (of s).tree := by
  rintro rfl
  rw [← eq_of_block_start ht hkind hu (Nat.zero_le _)] at hkind
  cases hkind

/-- Nodes are told apart by their numbers. -/
theorem eq_of_id (ht : t ∈ (of s).preorder) (hu : u ∈ (of s).preorder) (hid : t.id = u.id) : t = u := by
  obtain ⟨k, hk⟩ := Tree.numbers_ofOutline (Outline.ofFoci (Focus.all s.tokens)).1
  have hnodup : ((of s).preorder.map Tree.id).Nodup := hk.nodup_iff.2 List.nodup_range
  exact List.inj_on_of_nodup_map hnodup ht hu hid

/-- What lies in an item starts behind its first token. -/
theorem start_lt_of_item (ht : t ∈ (of s).preorder) (hitem : t.kind.isItem = true) (hu : u ∈ t.preorder)
    (hne : u ≠ t) : t.start < u.start := by
  obtain ⟨c, hc, hu⟩ := (Tree.mem_preorder_iff.1 hu).resolve_left hne
  obtain ⟨hlow, hlt, -⟩ := (Tree.within_node ht).of_mem hc (Tree.self_mem_preorder c)
  have hle := (range_of_mem (Tree.child_mem_preorder ht hc) hu).1
  have howns := (Tree.itemized_ofFoci s.tokens t ht hitem).start.2.2 c.head (List.mem_map_of_mem hc)
  rcases Nat.lt_or_eq_of_le hlow with hlow | heq
  · exact Nat.lt_of_lt_of_le hlow hle
  · exact absurd ⟨Nat.le_of_eq heq.symm, Nat.lt_of_le_of_lt (Nat.le_of_eq heq) hlt⟩ howns

/-- The block of an item is its first child. -/
theorem block_of_item (ht : t ∈ (of s).preorder) (hitem : t.kind.isItem = true) : t.block = t.children.head? := by
  have hblocks : ∀ c ∈ t.children, c.kind = .braceBlock := fun c hc ↦
    (Tree.itemized_ofFoci s.tokens t ht hitem).blocks c.head (List.mem_map_of_mem hc)
  rw [Tree.block]
  cases hchildren : t.children with
  | nil => rfl
  | cons c rest => exact List.find?_cons_of_pos (beq_iff_eq.2 (hblocks c (by simp [hchildren])))

theorem node_foci : t.foci (of s).foci = Focus.stretch (Focus.all s.tokens) t.start t.stop := Array.toList_extract ..

/-- The tokens of a node are those in its range. -/
theorem mem_node_foci {f : Focus} : f ∈ t.foci (of s).foci ↔ f ∈ Focus.all s.tokens ∧ t.covers f.index = true := by
  rw [node_foci, Focus.mem_stretch (Focus.all_consecutive s.tokens), Tree.covers_iff]

end Analysis

/-- The body of a function is a block, under the node of the function. -/
theorem FunctionFact.Sound.body_visit {s : Source} {fn : FunctionFact} {body : Tree}
    (hfn : fn.Sound (Analysis.of s).foci (Analysis.of s).visits) (hb : fn.body = some body) :
    body.kind = .braceBlock ∧ ⟨body, fn.node.tree :: fn.node.above⟩ ∈ (Analysis.of s).visits := by
  have hfind := hfn.body ▸ hb
  refine ⟨by simpa using List.find?_some hfind, Tree.visits_subset hfn.node ?_⟩
  rw [Tree.visits_eq_cons]
  refine List.mem_cons_of_mem _ (List.mem_flatMap.2 ⟨body, List.mem_of_find?_eq_some hfind, ?_⟩)
  rw [Tree.visits_eq_cons]
  exact List.mem_cons_self ..

end CodeStyle
