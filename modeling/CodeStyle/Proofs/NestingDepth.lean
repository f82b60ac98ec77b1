import CodeStyle.Proofs.DistinctFindings
import CodeStyle.Proofs.LeadingTokens

/-!
How deep control statements are nested. From a statement upwards the depth falls by one at each control
statement, so that of the statements on the way up exactly one has the first depth that is too deep, and the
others need no finding of their own.
-/

namespace CodeStyle

theorem RuleInput.untilCancelled_of_never {α : Type} {r : RuleInput} (h : ∀ k, r.cancelled k = false) (items : List α) :
    r.untilCancelled items = items := by
  rw [untilCancelled, List.takeWhile_eq_self_iff.2 (by simp [h]), List.zipIdx_map_fst]

/-- Items are told apart by where they start. -/
theorem Analysis.eq_of_start {s : Source} {v w : Visit} (hv : v ∈ (of s).visits) (hw : w ∈ (of s).visits)
    (hvitem : v.tree.kind.isItem = true) (hwitem : w.tree.kind.isItem = true) (hstart : v.tree.start = w.tree.start) :
    v = w := by
  by_contra hne
  have hapart := List.pairwise_map.1 (visits_apart s)
  have : Std.Symm fun u w : Visit ↦ ∀ i, u.tree.Owns i → ¬w.tree.Owns i := ⟨fun _ _ h i hi hi' ↦ h i hi' hi⟩
  have howns {u : Visit} (hu : u ∈ (of s).visits) (hitem : u.tree.kind.isItem = true) : u.tree.Owns u.tree.start :=
    (Tree.itemized_ofFoci s.tokens u.tree (List.mem_map_of_mem hu) hitem).start
  exact hapart.forall hv hw hne _ (howns hv hvitem) (hstart ▸ howns hw hwitem)

namespace Rule.Structure

/-- On a way up on which `q` holds at the `k`-th place from its end of those where `p` holds, `q` holds once if there
are that many. -/
theorem countP_height {α : Type} {p q : α → Bool} {k : Nat} (hk : 0 < k) {way : List α}
    (h : ∀ front u rest, way = front ++ u :: rest → (q u = true ↔ p u = true ∧ 1 + rest.countP p = k)) :
    way.countP q = if k ≤ way.countP p then 1 else 0 := by
  induction way with
  | nil => simp [Nat.not_le.2 hk]
  | cons u rest ih =>
    have hrest := ih fun front w tail hw ↦ h (u :: front) w tail (by rw [hw]; rfl)
    have hu := h [] u rest rfl
    rw [List.countP_cons, List.countP_cons, hrest]
    by_cases hp : p u = true
    · simp only [hp, true_and] at hu
      by_cases hq : 1 + rest.countP p = k
      · rw [if_neg (by omega), if_pos (hu.2 hq), if_pos hp, if_pos (by omega)]
      · have hq' : ¬q u = true := fun hq' ↦ hq (hu.1 hq')
        rw [if_neg hq', if_pos hp, Nat.add_zero]
        exact if_congr (by omega) rfl rfl
    · have hq' : ¬q u = true := fun hq' ↦ hp (hu.1 hq').1
      rw [if_neg hq', if_neg hp, Nat.add_zero, Nat.add_zero]

/-- Whether a finding stands at the keyword of a control statement. -/
def reports (findings : List Finding) (foci : Array Focus) (t : Tree) : Bool :=
  t.isControl foci && (t.firstCode foci).any fun lead ↦ findings.any (·.span == lead.token.span)

/-- What is said of the statements at the first depth that is too deep. -/
def tooDeep (limit : Nat) (a : Analysis) : List Finding :=
  ((controlStatements a).filter (controlDepth a.foci · == limit + 1)).flatMap fun v ↦
    (v.tree.firstCode a.foci).toList.map fun lead ↦
      ⟨lead.token.span, s!"control statement nested {limit + 1} deep, limit is {limit}", none⟩

section

variable {s : Source} {v w : Visit} {limit : Nat}

theorem nestingDepth_eq (limits : Limits) :
    nestingDepth ⟨Analysis.of s, limits, fun _ ↦ false⟩ = .found (tooDeep limits.nestingDepth (Analysis.of s)) := by
  have hall := RuleInput.untilCancelled_of_never (r := ⟨Analysis.of s, limits, fun _ ↦ false⟩) (fun _ ↦ rfl)
    (controlStatements (Analysis.of s))
  rw [nestingDepth]
  dsimp only
  rw [hall]
  refine Outcome.each_eq_found fun v hv ↦ ?_
  obtain ⟨word, hword⟩ := controlStatements_lead (List.mem_of_mem_filter hv)
  obtain ⟨lead, hlead⟩ := Tree.firstCode_of_leadKeyword hword
  rw [withLead, hlead]
  rfl

theorem mem_controlStatements : v ∈ controlStatements (Analysis.of s) ↔
    v ∈ (Analysis.of s).visits ∧ v.tree.isControl (Analysis.of s).foci = true :=
  List.mem_filter

theorem kind_of_isControl {foci : Array Focus} {t : Tree} (h : t.isControl foci = true) : t.kind = .statement := by
  simp only [Tree.isControl, Bool.and_eq_true, beq_iff_eq] at h
  exact h.1

/-- A control statement is reported if it is at the first depth that is too deep, and for no other reason. -/
theorem reports_tooDeep (hv : v ∈ (Analysis.of s).visits) :
    reports (tooDeep limit (Analysis.of s)) (Analysis.of s).foci v.tree = true ↔
      v.tree.isControl (Analysis.of s).foci = true ∧ controlDepth (Analysis.of s).foci v = limit + 1 := by
  rw [reports, Bool.and_eq_true]
  refine and_congr_right fun hcontrol ↦ ?_
  obtain ⟨word, hword⟩ := leadKeyword_of_isControl hcontrol
  obtain ⟨lead, hlead⟩ := Tree.firstCode_of_leadKeyword hword
  have hkind := kind_of_isControl hcontrol
  obtain ⟨hmem, hindex⟩ := (Analysis.firstCode_statement (List.mem_map_of_mem hv) hkind).1 hlead
  simp only [hlead, Option.any_some, List.any_eq_true, beq_iff_eq, tooDeep, List.mem_flatMap, List.mem_map,
    List.mem_filter, Option.mem_toList]
  constructor
  · rintro ⟨d, ⟨w, ⟨hw, hdeep⟩, lead', hlead', rfl⟩, hspan⟩
    obtain ⟨hw, hcontrol'⟩ := mem_controlStatements.1 hw
    have hkind' := kind_of_isControl hcontrol'
    obtain ⟨hmem', hindex'⟩ := (Analysis.firstCode_statement (List.mem_map_of_mem hw) hkind').1 hlead'
    obtain rfl := Focus.eq_of_startByte hmem' hmem (congrArg Span.startByte hspan)
    obtain rfl := Analysis.eq_of_start hv hw (by rw [hkind]; rfl) (by rw [hkind']; rfl) (hindex.symm.trans hindex')
    exact hdeep
  · intro hdeep
    exact ⟨_, ⟨v, ⟨mem_controlStatements.2 ⟨hv, hcontrol⟩, hdeep⟩, lead, hlead, rfl⟩, rfl⟩

/-- The nodes on the way up from a node are visited with the rest of the way above them. -/
theorem visit_of_way {front rest : List Tree} {u : Tree} (hv : v ∈ (Analysis.of s).visits)
    (hway : v.tree :: v.above = front ++ u :: rest) : ⟨u, rest⟩ ∈ (Analysis.of s).visits := by
  cases front with
  | nil =>
    obtain ⟨rfl, rfl⟩ := List.cons.inj hway
    exact hv
  | cons t front => exact (Tree.visit_of_above hv (List.cons.inj hway).2).1

/-- On the way up from a control statement one is reported, if the statement is too deep. -/
theorem countP_reports (hv : v ∈ controlStatements (Analysis.of s)) :
    (v.tree :: v.above).countP (reports (tooDeep limit (Analysis.of s)) (Analysis.of s).foci) =
      if limit < controlDepth (Analysis.of s).foci v then 1 else 0 := by
  obtain ⟨hvisit, hcontrol⟩ := mem_controlStatements.1 hv
  have hdepth : (v.tree :: v.above).countP (·.isControl (Analysis.of s).foci) =
      controlDepth (Analysis.of s).foci v := by
    rw [List.countP_cons_of_pos hcontrol, controlDepth, Nat.add_comm]
  rw [← hdepth]
  exact countP_height (Nat.succ_pos limit) fun front u rest hway ↦ reports_tooDeep (visit_of_way hvisit hway)

end

/-- Of a control statement that is too deep and the nodes above it exactly one is reported, and it alone. -/
theorem nestingDepth_covers (s : Source) (limits : Limits) :
    ∃ findings, nestingDepth ⟨Analysis.of s, limits, fun _ ↦ false⟩ = .found findings ∧
      (findings.map Finding.span).Nodup ∧
      (∀ d ∈ findings, ∃ v ∈ controlStatements (Analysis.of s), reports [d] (Analysis.of s).foci v.tree = true) ∧
      ∀ v ∈ controlStatements (Analysis.of s),
        (limits.nestingDepth < controlDepth (Analysis.of s).foci v →
          (v.tree :: v.above).countP (reports findings (Analysis.of s).foci) = 1) ∧
        (controlDepth (Analysis.of s).foci v ≤ limits.nestingDepth →
          reports findings (Analysis.of s).foci v.tree = false) := by
  have heq := nestingDepth_eq (s := s) limits
  refine ⟨_, heq, ?_, fun d hd ↦ ?_, fun v hv ↦ ⟨fun hdeep ↦ ?_, fun hdepth ↦ ?_⟩⟩
  · have hapart := Rule.nestingDepth_apart (r := ⟨Analysis.of s, limits, fun _ ↦ false⟩) rfl
    rw [heq] at hapart
    exact hapart.nodup
  · obtain ⟨v, hv, hd⟩ := List.mem_flatMap.1 hd
    have hcontrol := List.mem_of_mem_filter hv
    obtain ⟨lead, hlead, rfl⟩ := List.mem_map.1 hd
    refine ⟨v, hcontrol, ?_⟩
    rw [reports, (mem_controlStatements.1 hcontrol).2, Option.mem_toList.1 hlead]
    simp
  · rw [countP_reports hv, if_pos hdeep]
  · rw [Bool.eq_false_iff, ne_eq, reports_tooDeep (mem_controlStatements.1 hv).1]
    rintro ⟨-, hdeep⟩
    omega

-- The third statement is too deep and reported, and stands for the one inside of it.
example : (nestingDepth ⟨Analysis.of ⟨"", Text.bytesOf
    "f()\x7bif(a)\x7bwhile(b)\x7bif(c)\x7bfor(;;)\x7b\x7d\x7d\x7d\x7d\x7d"⟩, { nestingDepth := 2 },
    fun _ ↦ false⟩).findings.map (·.span.startByte) = [19] := by
  decide +kernel

end Rule.Structure

end CodeStyle
