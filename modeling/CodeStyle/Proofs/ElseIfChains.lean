import CodeStyle.Proofs.FindingPlaces

/-!
Chains of `else if`. A conditional block may start with an `else`, and then the block ends a chain in place of the
statement inside it. That statement ends no chain of its own, since nothing before it in the block has code. So
no two chains of a file end at the same `else`.
-/

namespace CodeStyle

/-- The code of a node starts with the token of index `i`. -/
structure Tree.CodeFrom (foci : Array Focus) (t : Tree) (i : Nat) : Prop where
  start_le : t.start ≤ i
  lt_stop : i < t.stop
  isCode : ∃ f, foci[i]? = some f ∧ f.isCode = true
  first : ∀ j, t.start ≤ j → j < i → ∀ g, foci[j]? = some g → g.isCode = false

theorem firstCodeFrom_first {foci : Array Focus} {start count : Nat} {f : Focus}
    (h : firstCodeFrom foci start count = some f) :
    ∃ i, foci[i]? = some f ∧ f.isCode = true ∧ start ≤ i ∧ i < start + count ∧
      ∀ j, start ≤ j → j < i → ∀ g, foci[j]? = some g → g.isCode = false := by
  fun_induction firstCodeFrom foci start count with
  | case1 => cases h
  | case2 => cases h
  | case3 start count g hg hcode =>
    cases h
    exact ⟨start, hg, hcode, Nat.le_refl _, by omega, fun j hj hlt ↦ by omega⟩
  | case4 start count g hg hcode ih =>
    obtain ⟨i, hi, hf, hle, hlt, hfirst⟩ := ih h
    refine ⟨i, hi, hf, by omega, by omega, fun j hj hji q hq ↦ ?_⟩
    rcases Nat.lt_or_eq_of_le hj with hj | rfl
    · exact hfirst j hj hji q hq
    · cases hg.symm.trans hq
      simpa using hcode

theorem Tree.codeFrom_of_firstCode {foci : Array Focus} {t : Tree} {f : Focus} (h : t.firstCode foci = some f) :
    ∃ i, foci[i]? = some f ∧ t.CodeFrom foci i := by
  obtain ⟨i, hi, hcode, hle, hlt, hfirst⟩ := firstCodeFrom_first h
  have hsize : t.size = t.stop - t.start := rfl
  exact ⟨i, hi, hle, by omega, ⟨f, hi, hcode⟩, hfirst⟩

theorem Tree.Within.eq_of_index {P : NodeHead → Prop} {low high i : Nat} {ts : List Tree} {t u : Tree}
    (h : Within P low high ts) (ht : t ∈ ts) (hu : u ∈ ts) (hti : t.start ≤ i ∧ i < t.stop)
    (hui : u.start ≤ i ∧ i < u.stop) : t = u := by
  have hsymm : Std.Symm fun t u : Tree ↦ t.start ≤ i ∧ i < t.stop → u.start ≤ i ∧ i < u.stop → t = u :=
    ⟨fun _ _ h hu ht ↦ (h ht hu).symm⟩
  have heq : ts.Pairwise fun t u ↦ t.start ≤ i ∧ i < t.stop → u.start ≤ i ∧ i < u.stop → t = u :=
    h.pairwise.imp fun hle ht hu ↦ absurd ht.2 (Nat.not_lt.2 (Nat.le_trans hle hu.1))
  exact heq.forall_of_forall (fun _ _ _ _ ↦ rfl) ht hu hti hui

namespace Rule

open Structure

variable {foci : Array Focus}

theorem chainRest_sublist (foci : Array Focus) (last : Option Tree) (ts : List Tree) :
    ((chainRest foci last ts).1.toList ++ (chainRest foci last ts).2).Sublist (last.toList ++ ts) := by
  fun_induction chainRest foci last ts with
  | case1 => exact .refl _
  | case2 last t rest _ ih => exact ih.trans ((List.sublist_cons_self t rest).append_left _)
  | case3 => exact .refl _
  | case4 last t rest _ _ _ ih => exact ih.trans (List.sublist_append_right last.toList (t :: rest))
  | case5 last t rest => exact (List.sublist_cons_self t rest).trans (List.sublist_append_right _ _)

theorem openChains_sublist (foci : Array Focus) (ts : List Tree) : (openChains foci ts).Sublist ts := by
  fun_induction openChains foci ts with
  | case1 => exact .slnil
  | case2 t rest _ ih => exact (((List.Sublist.refl _).append ih).trans (chainRest_sublist foci none rest)).cons _
  | case3 t rest _ ih => exact ih.cons _

/-- Before the end of a chain stands the `if` with which the chain starts. -/
theorem openChains_led {ts : List Tree} {u : Tree} (hu : u ∈ openChains foci ts) :
    ∃ w, [w, u].Sublist ts ∧ leads foci "if" w = true := by
  fun_induction openChains foci ts with
  | case1 => cases hu
  | case2 t rest hlead ih =>
    have hrest := chainRest_sublist foci none rest
    rcases List.mem_append.1 hu with hu | hu
    · refine ⟨t, List.Sublist.cons_cons t (List.singleton_sublist.2 ?_), hlead⟩
      exact hrest.subset (List.mem_append_left _ hu)
    · obtain ⟨w, hw, hlead⟩ := ih hu
      exact ⟨w, ((hw.trans (List.sublist_append_right _ _)).trans hrest).cons t, hlead⟩
  | case3 t rest _ ih =>
    obtain ⟨w, hw, hlead⟩ := ih hu
    exact ⟨w, hw.cons t, hlead⟩

/-- The ends of the chains under a node. -/
def chains (foci : Array Focus) (t : Tree) : List Tree := t.preorder.flatMap fun u ↦ openChains foci u.children

theorem chains_eq (foci : Array Focus) (t : Tree) :
    chains foci t = openChains foci t.children ++ t.children.flatMap (chains foci) := by
  rw [chains, Tree.preorder_eq_cons, List.flatMap_cons, List.flatMap_assoc]
  rfl

/-- The chains under a node end at different tokens, and code of the node stands before each of them. -/
structure ChainsApart (foci : Array Focus) (t : Tree) : Prop where
  apart : (chains foci t).Pairwise fun u w ↦ ∀ i, u.CodeFrom foci i → ¬w.CodeFrom foci i
  inside : ∀ u ∈ chains foci t, ∀ i, u.CodeFrom foci i →
    i < t.stop ∧ ∃ j f, t.start ≤ j ∧ j < i ∧ foci[j]? = some f ∧ f.isCode = true

variable {P : NodeHead → Prop} {t : Tree}

theorem openChains_inside (h : Tree.Within P t.start t.stop t.children) {u : Tree} (hu : u ∈ openChains foci t.children)
    {i : Nat} (hi : u.CodeFrom foci i) :
    i < t.stop ∧ ∃ j f, t.start ≤ j ∧ j < i ∧ foci[j]? = some f ∧ f.isCode = true := by
  obtain ⟨w, hsub, hlead⟩ := openChains_led hu
  obtain ⟨f, hf⟩ := Tree.firstCode_of_leadKeyword (leads_iff.1 hlead)
  obtain ⟨j, -, hj⟩ := Tree.codeFrom_of_firstCode hf
  obtain ⟨g, hg, hcode⟩ := hj.isCode
  have hbefore : w.stop ≤ u.start := List.rel_of_pairwise_cons (h.pairwise.sublist hsub) List.mem_cons_self
  have hwstart := (h.bounds w (hsub.subset (by simp))).1
  have hustop := (h.bounds u (hsub.subset (by simp))).2
  have hjlow := hj.start_le
  have hjhigh := hj.lt_stop
  have hilow := hi.start_le
  have hihigh := hi.lt_stop
  exact ⟨by omega, j, g, by omega, by omega, hg, hcode⟩

theorem ChainsApart.node (h : Tree.Within P t.start t.stop t.children) (ih : ∀ c ∈ t.children, ChainsApart foci c) :
    ChainsApart foci t := by
  have holds {c u : Tree} (hc : c ∈ t.children) (hu : u ∈ chains foci c) {i : Nat} (hi : u.CodeFrom foci i) :
      c.start ≤ i ∧ i < c.stop := by
    obtain ⟨hstop, j, f, hlow, hlt, -⟩ := (ih c hc).inside u hu i hi
    omega
  have hsub := openChains_sublist foci t.children
  constructor
  · rw [chains_eq]
    refine List.pairwise_append.2 ⟨?_, List.pairwise_flatMap.2 ⟨fun c hc ↦ (ih c hc).apart, ?_⟩, ?_⟩
    · exact (h.pairwise.sublist hsub).imp fun hle i hu hw ↦
        Nat.not_lt.2 (Nat.le_trans hle hw.start_le) hu.lt_stop
    · refine h.pairwise.imp_of_mem fun {c d} hc hd hle u hu w hw i hui hwi ↦ ?_
      exact Nat.not_lt.2 (Nat.le_trans hle (holds hd hw hwi).1) (holds hc hu hui).2
    · -- A chain that ends with a child has no code before the chains in that child.
      intro u hu w hw i hui hwi
      obtain ⟨c, hc, hw⟩ := List.mem_flatMap.1 hw
      obtain rfl := h.eq_of_index (hsub.subset hu) hc ⟨hui.start_le, hui.lt_stop⟩ (holds hc hw hwi)
      obtain ⟨-, j, f, hlow, hlt, hf, hcode⟩ := (ih u hc).inside w hw i hwi
      rw [hui.first j hlow hlt f hf] at hcode
      cases hcode
  · intro u hu i hi
    rw [chains_eq] at hu
    rcases List.mem_append.1 hu with hu | hu
    · exact openChains_inside h hu hi
    · obtain ⟨c, hc, hu⟩ := List.mem_flatMap.1 hu
      obtain ⟨hstop, j, f, hlow, hlt, hf⟩ := (ih c hc).inside u hu i hi
      have hbounds := h.bounds c hc
      exact ⟨by omega, j, f, by omega, hlt, hf⟩

theorem chainsApart (t : Tree) (h : ∀ u ∈ t.preorder, Tree.Within P u.start u.stop u.children) :
    ChainsApart foci t := by
  induction t using Tree.induct with
  | node id head children ih =>
    refine ChainsApart.node (h _ (Tree.self_mem_preorder _)) fun c hc ↦ ih c hc fun u hu ↦ ?_
    exact h u (Tree.mem_preorder_iff.2 (.inr ⟨c, hc, hu⟩))

theorem elseIfTermination_apart {r : RuleInput} {s : Source} (hr : r.file = Analysis.of s) :
    Span.Apart (elseIfTermination r).spans := by
  have hchains : ChainsApart (Analysis.of s).foci (Analysis.of s).tree :=
    chainsApart _ fun u hu ↦ Tree.within_node hu
  have hdisjoint : (chains (Analysis.of s).foci (Analysis.of s).tree).Pairwise fun t u ↦ ∀ k,
      (∃ f, t.firstCode (Analysis.of s).foci = some f ∧ f.token.Has k) →
        ¬∃ g, u.firstCode (Analysis.of s).foci = some g ∧ g.token.Has k := by
    refine hchains.apart.imp fun happart k ↦ ?_
    rintro ⟨f, hf, hfk⟩ ⟨g, hg, hgk⟩
    obtain ⟨i, hi, hti⟩ := Tree.codeFrom_of_firstCode hf
    obtain ⟨j, hj, huj⟩ := Tree.codeFrom_of_firstCode hg
    rw [Analysis.getElem_foci] at hi hj
    obtain rfl := Focus.eq_of_has (Analysis.mem_foci.1 hi.1) (Analysis.mem_foci.1 hj.1) hfk hgk
    obtain rfl := hi.2.symm.trans hj.2
    exact happart i hti huj
  rw [elseIfTermination, hr]
  refine Outcome.each_apart hdisjoint fun t _ ↦ ?_
  unfold withLead
  split
  case h_1 f hf =>
    have hmem := Analysis.mem_foci.1 (Tree.firstCode_mem hf)
    exact .one ⟨f, hf, Source.has_start (Focus.token_mem hmem)⟩
  case h_2 => exact .nil

end Rule

end CodeStyle
