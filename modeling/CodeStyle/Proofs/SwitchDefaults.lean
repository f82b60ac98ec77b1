import CodeStyle.Proofs.BuiltinRules
import CodeStyle.Proofs.LeadingTokens

/-!
The `default` of a `switch`. The search for it stops at whatever starts with a `switch`, and that may be a
conditional: a `default` of the outer `switch` is not seen in a conditional whose code starts with an inner one.
-/

namespace CodeStyle

theorem Tree.visits_append (t : Tree) (above more : List Tree) :
    t.visits (above ++ more) = (t.visits above).map fun v ↦ ⟨v.tree, v.above ++ more⟩ := by
  induction t using induct generalizing above with
  | node id head children ih =>
    rw [visits_eq_cons, visits_eq_cons above, List.map_cons, List.map_flatMap]
    exact congrArg _ (List.flatMap_congr fun c hc ↦ ih c hc (_ :: above))

namespace Rule.Structure

variable {foci : Array Focus} {t : Tree}

/-- The label of a `default`. -/
def isDefault (foci : Array Focus) (t : Tree) : Bool := leads foci "default" t && t.kind == .statement

theorem hasDefaultAmong_eq (ts : List Tree) :
    hasDefaultAmong foci ts = ts.any fun c ↦ isDefault foci c || (!leads foci "switch" c && hasDefault foci c) := by
  induction ts with
  | nil => rfl
  | cons c ts ih =>
    rw [hasDefaultAmong, List.any_cons, ih, isDefault]
    cases leads foci "default" c && c.kind == .statement <;> cases leads foci "switch" c <;> rfl

/-- A `default` is found if nothing between starts with a `switch`. -/
theorem hasDefault_iff : hasDefault foci t = true ↔ ∃ c ∈ t.children, ∃ d ∈ c.visits [],
    isDefault foci d.tree = true ∧ ∀ u ∈ d.above, leads foci "switch" u = false := by
  induction t using Tree.induct with
  | node id head children ih =>
    simp only [hasDefault, hasDefaultAmong_eq, List.any_eq_true, Bool.or_eq_true, Bool.and_eq_true,
      Bool.not_eq_true', Tree.children]
    refine exists_congr fun c ↦ and_congr_right fun hc ↦ ?_
    rw [ih c hc, Tree.visits_eq_cons, List.exists_mem_cons_iff]
    refine or_congr (by simp) ?_
    constructor
    · rintro ⟨hc, c', hc', d, hd, hdefault, habove⟩
      refine ⟨⟨d.tree, d.above ++ [c]⟩, List.mem_flatMap.2 ⟨c', hc', ?_⟩, hdefault, ?_⟩
      · rw [← List.nil_append [c], Tree.visits_append]
        exact List.mem_map_of_mem hd
      · rw [List.forall_mem_append, List.forall_mem_singleton]
        exact ⟨habove, hc⟩
    · rintro ⟨d, hd, hdefault, habove⟩
      obtain ⟨c', hc', hin⟩ := List.mem_flatMap.1 hd
      rw [← List.nil_append [c], Tree.visits_append] at hin
      obtain ⟨e, he, rfl⟩ := List.mem_map.1 hin
      rw [List.forall_mem_append, List.forall_mem_singleton] at habove
      exact ⟨habove.2, c', hc', e, he, hdefault, habove.1⟩

/-- A `default` under a block that no `switch` between them has for itself. -/
structure OwnDefault (foci : Array Focus) (block : Tree) (d : Visit) : Prop where
  mem : d ∈ block.visits []
  kind : d.tree.kind = .statement
  lead : d.tree.leadKeyword foci = some "default"
  own : ∀ u ∈ d.above, u.kind = .statement → u.leadKeyword foci ≠ some "switch"

/-- A conditional whose code starts with a `switch` lies above. -/
def Screened (foci : Array Focus) (d : Visit) : Prop :=
  ∃ u ∈ d.above, u.kind = .preprocessorBlock ∧ u.leadKeyword foci = some "switch"

theorem isDefault_iff : isDefault foci t = true ↔ t.kind = .statement ∧ t.leadKeyword foci = some "default" := by
  rw [isDefault, Bool.and_eq_true, leads_iff, beq_iff_eq, and_comm]

/-- In a block, the `default`s that are found are its own outside of such conditionals. -/
theorem hasDefault_block {s : Source} {block : Tree} (hblock : block ∈ (Analysis.of s).preorder)
    (hkind : block.kind = .braceBlock) :
    hasDefault (Analysis.of s).foci block = true ↔
      ∃ d, OwnDefault (Analysis.of s).foci block d ∧ ¬Screened (Analysis.of s).foci d := by
  have hswitch {u : Tree} (hu : u ∈ block.preorder) (hchildren : u.children ≠ [])
      (hlead : u.leadKeyword (Analysis.of s).foci = some "switch") :
      u.kind = .statement ∨ u.kind = .preprocessorBlock :=
    Analysis.kind_of_lead (Tree.preorder_subset hblock hu) (Analysis.ne_root_of_block hblock hkind hu) hchildren
      hlead (by decide)
  rw [hasDefault_iff]
  constructor
  · rintro ⟨c, hc, d, hd, hdefault, habove⟩
    rw [isDefault_iff] at hdefault
    have hmem : ⟨d.tree, d.above ++ [block]⟩ ∈ block.visits [] := by
      rw [Tree.visits_eq_cons]
      refine List.mem_cons_of_mem _ (List.mem_flatMap.2 ⟨c, hc, ?_⟩)
      rw [← List.nil_append [block], Tree.visits_append]
      exact List.mem_map_of_mem hd
    have hfree : ∀ u ∈ d.above ++ [block], u.leadKeyword (Analysis.of s).foci ≠ some "switch" := by
      rw [List.forall_mem_append, List.forall_mem_singleton]
      refine ⟨fun u hu ↦ ?_, fun hlead ↦ ?_⟩
      · have := habove u hu
        rwa [← Bool.not_eq_true, leads_iff] at this
      · rcases hswitch (Tree.self_mem_preorder block) (List.ne_nil_of_mem hc) hlead with h | h <;>
          exact absurd (hkind.symm.trans h) (by decide)
    refine ⟨_, ⟨hmem, hdefault.1, hdefault.2, fun u hu _ ↦ hfree u hu⟩, ?_⟩
    rintro ⟨u, hu, -, hlead⟩
    exact hfree u hu hlead
  · rintro ⟨d, hown, hscreened⟩
    have hmem := hown.mem
    rw [Tree.visits_eq_cons] at hmem
    rcases List.mem_cons.1 hmem with rfl | hmem
    · exact absurd (hkind.symm.trans hown.kind) (by decide)
    · obtain ⟨c, hc, hin⟩ := List.mem_flatMap.1 hmem
      rw [← List.nil_append [block], Tree.visits_append] at hin
      obtain ⟨e, he, rfl⟩ := List.mem_map.1 hin
      refine ⟨c, hc, e, he, isDefault_iff.2 ⟨hown.kind, hown.lead⟩, fun u hu ↦ ?_⟩
      have hu' : u ∈ e.above ++ [block] := List.mem_append_left _ hu
      rw [← Bool.not_eq_true, leads_iff]
      intro hlead
      obtain ⟨hin, c', hc', -⟩ := Tree.below_of_above hown.mem hu'
      rcases hswitch hin (List.ne_nil_of_mem hc') hlead with hu | hu
      · exact hown.own u hu' hu hlead
      · exact hscreened ⟨u, hu', hu, hlead⟩

/-- The statements that a `switch` leads. -/
def switches (a : Analysis) : List Visit := (controlStatements a).filter (leads a.foci "switch" ·.tree)

/-- A `switch` that is reported, with its keyword. -/
def withoutDefault (foci : Array Focus) (v : Visit) : List (Visit × Focus) :=
  if v.tree.block.any (hasDefault foci) then [] else ((v.tree.firstCode foci).map (v, ·)).toList

section

variable {s : Source} {v : Visit} {k : Focus}

theorem mem_switches : v ∈ switches (Analysis.of s) ↔ v ∈ (Analysis.of s).visits ∧ v.tree.kind = .statement ∧
    v.tree.leadKeyword (Analysis.of s).foci = some "switch" := by
  simp only [switches, controlStatements, List.mem_filter, leads_iff, Tree.isControl, Bool.and_eq_true, beq_iff_eq,
    and_assoc]
  refine and_congr_right fun _ ↦ and_congr_right fun _ ↦ and_iff_right_of_imp fun hlead ↦ ?_
  rw [hlead]
  decide

theorem mem_withoutDefault {w : Visit} {foci : Array Focus} : (v, k) ∈ withoutDefault foci w ↔
    v = w ∧ w.tree.firstCode foci = some k ∧ ∀ block, w.tree.block = some block → hasDefault foci block = false := by
  have hnone : w.tree.block.any (hasDefault foci) = false ↔
      ∀ block, w.tree.block = some block → hasDefault foci block = false := by
    cases w.tree.block <;> simp
  unfold withoutDefault
  rw [← hnone]
  cases w.tree.block.any (hasDefault foci) <;> cases w.tree.firstCode foci <;> simp [eq_comm]

theorem mem_reported : (v, k) ∈ (switches (Analysis.of s)).flatMap (withoutDefault (Analysis.of s).foci) ↔
    v ∈ (Analysis.of s).visits ∧ v.tree.kind = .statement ∧ k ∈ Focus.all s.tokens ∧ k.index = v.tree.start ∧
      k.token.isKeyword "switch" = true ∧ ∀ block, v.tree.block = some block →
        ∀ d, OwnDefault (Analysis.of s).foci block d → Screened (Analysis.of s).foci d := by
  have hblocks (hv : v ∈ (Analysis.of s).visits) :
      (∀ block, v.tree.block = some block → hasDefault (Analysis.of s).foci block = false) ↔
        ∀ block, v.tree.block = some block →
          ∀ d, OwnDefault (Analysis.of s).foci block d → Screened (Analysis.of s).foci d := by
    refine forall_congr' fun block ↦ forall_congr' fun hblock ↦ ?_
    have hmem := Tree.child_mem_preorder (List.mem_map_of_mem hv) (List.mem_of_find?_eq_some hblock)
    rw [← Bool.not_eq_true, hasDefault_block hmem (by simpa using List.find?_some hblock)]
    simp only [not_exists, not_and_not_right]
  rw [List.mem_flatMap]
  constructor
  · rintro ⟨w, hw, hin⟩
    obtain ⟨hv, hkind, hlead⟩ := mem_switches.1 hw
    obtain ⟨rfl, hfirst, hnone⟩ := mem_withoutDefault.1 hin
    obtain ⟨hk, hindex⟩ := (Analysis.firstCode_statement (List.mem_map_of_mem hv) hkind).1 hfirst
    exact ⟨hv, hkind, hk, hindex, (Analysis.leadKeyword_eq hfirst).1 hlead, (hblocks hv).1 hnone⟩
  · rintro ⟨hv, hkind, hk, hindex, hkeyword, hnone⟩
    have hfirst := (Analysis.firstCode_statement (List.mem_map_of_mem hv) hkind).2 ⟨hk, hindex⟩
    exact ⟨v, mem_switches.2 ⟨hv, hkind, (Analysis.leadKeyword_eq hfirst).2 hkeyword⟩,
      mem_withoutDefault.2 ⟨rfl, hfirst, (hblocks hv).2 hnone⟩⟩

theorem reported_sublist (s : Source) :
    (((switches (Analysis.of s)).flatMap (withoutDefault (Analysis.of s).foci)).map Prod.fst).Sublist
      (Analysis.of s).visits := by
  have hone (w : Visit) : ((withoutDefault (Analysis.of s).foci w).map Prod.fst).Sublist [w] := by
    unfold withoutDefault
    split
    · exact List.nil_sublist _
    · cases w.tree.firstCode (Analysis.of s).foci with
      | none => exact List.nil_sublist _
      | some f => exact .refl _
  have hsub : (switches (Analysis.of s)).Sublist (Analysis.of s).visits :=
    List.filter_sublist.trans List.filter_sublist
  refine List.Sublist.trans ?_ hsub
  rw [List.map_flatMap]
  conv => rhs; rw [← List.map_id (switches _), List.map_eq_flatMap]
  exact List.Sublist.flatMap_right _ fun w _ ↦ hone w

/-- No keyword is reported twice. -/
theorem reported_nodup (s : Source) :
    (((switches (Analysis.of s)).flatMap (withoutDefault (Analysis.of s).foci)).map (·.2.index)).Nodup := by
  have hapart := List.pairwise_map.1 (Analysis.visits_apart s)
  refine List.pairwise_map.2 (List.Pairwise.imp_of_mem ?_ (List.pairwise_map.1 (hapart.sublist (reported_sublist s))))
  intro q q' hq hq' hdisjoint hsame
  have howns {q : Visit × Focus} (hq : q ∈ (switches (Analysis.of s)).flatMap (withoutDefault (Analysis.of s).foci)) :
      q.1.tree.Owns q.2.index := by
    obtain ⟨hv, hkind, -, hindex, -⟩ := mem_reported.1 hq
    rw [hindex]
    exact (Tree.itemized_ofFoci s.tokens _ (List.mem_map_of_mem hv) (by rw [hkind]; rfl)).start
  exact hdisjoint _ (howns hq) (hsame ▸ howns hq')

end

/-- Exactly one finding stands at the keyword of each `switch` whose block is missing, or has no `default` of its
own outside of conditionals whose code starts with a `switch`. -/
theorem switchDefault_exact (s : Source) (limits : Limits) (cancelled : Nat → Bool) :
    ∃ reported : List (Visit × Focus),
      switchDefault ⟨Analysis.of s, limits, cancelled⟩ =
        .found (reported.map fun q ↦ ⟨q.2.token.span, "switch has no default label", none⟩) ∧
      (reported.map Prod.fst).Sublist (Analysis.of s).visits ∧ (reported.map (·.2.index)).Nodup ∧
      ∀ v k, (v, k) ∈ reported ↔ v ∈ (Analysis.of s).visits ∧ v.tree.kind = .statement ∧
        k ∈ Focus.all s.tokens ∧ k.index = v.tree.start ∧ k.token.isKeyword "switch" = true ∧
        ∀ block, v.tree.block = some block →
          ∀ d, OwnDefault (Analysis.of s).foci block d → Screened (Analysis.of s).foci d := by
  refine ⟨(switches (Analysis.of s)).flatMap (withoutDefault (Analysis.of s).foci), ?_, reported_sublist s,
    reported_nodup s, fun v k ↦ mem_reported⟩
  rw [List.map_flatMap]
  refine Outcome.each_eq_found fun v hv ↦ ?_
  obtain ⟨f, hf⟩ := Tree.firstCode_of_leadKeyword (mem_switches.1 hv).2.2
  simp only [withLead, withoutDefault, hf, Option.map_some]
  split
  · rfl
  · rfl

/-- A `default` of its own is of no use to a `switch` where the conditional around it starts with another one. -/
theorem switchDefault_screened :
    ∃ s : Source, s.bytes = Text.bytesOf
        "void f()\x7bswitch(x)\x7b\n#if A\nswitch(x)\x7bdefault:;\x7d\ndefault:;\n#endif\n\x7d\x7d" ∧
      (Analysis.of s).delimiterErrors = [] ∧
      ∃ v ∈ (Analysis.of s).visits, ∃ block d, v.tree.block = some block ∧
        OwnDefault (Analysis.of s).foci block d ∧
        ∃ k ∈ Focus.all s.tokens, k.index = v.tree.start ∧ k.token.isKeyword "switch" = true ∧
          switchDefault ⟨Analysis.of s, {}, fun _ ↦ false⟩ =
            .found [⟨k.token.span, "switch has no default label", none⟩] := by
  let s : Source := ⟨"", Text.bytesOf
    "void f()\x7bswitch(x)\x7b\n#if A\nswitch(x)\x7bdefault:;\x7d\ndefault:;\n#endif\n\x7d\x7d"⟩
  have hread : ∃ v ∈ (Analysis.of s).visits, ∃ d ∈ v.tree.block.toList.flatMap (Tree.visits []),
      (d.tree.kind = .statement ∧ d.tree.leadKeyword (Analysis.of s).foci = some "default" ∧
        ∀ u ∈ d.above, u.kind = .statement → u.leadKeyword (Analysis.of s).foci ≠ some "switch") ∧
      ∃ k ∈ Focus.all s.tokens, k.index = v.tree.start ∧ k.token.isKeyword "switch" = true ∧
        switchDefault ⟨Analysis.of s, {}, fun _ ↦ false⟩ =
          .found [⟨k.token.span, "switch has no default label", none⟩] := by
    decide +kernel
  obtain ⟨v, hv, d, hd, ⟨hkind, hlead, hown⟩, hfound⟩ := hread
  obtain ⟨block, hblock, hd⟩ := List.mem_flatMap.1 hd
  exact ⟨s, rfl, by decide +kernel, v, hv, block, d, Option.mem_toList.1 hblock, ⟨hd, hkind, hlead, hown⟩, hfound⟩

end Rule.Structure

end CodeStyle
