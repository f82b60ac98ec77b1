import CodeStyle.Proofs.BuiltinRules
import CodeStyle.Proofs.Enclosure

/-!
Jumps into blocks. Where a `goto` may jump is decided by the blocks around it, and comes down to its
place: it stays in the innermost block around its label or it does not.
-/

namespace CodeStyle

/-- The block that lies around a node and in all other blocks around it. -/
structure Tree.Innermost (root node block : Tree) : Prop where
  mem : block ∈ root.preorder
  kind : block.kind = .braceBlock
  around : block.start ≤ node.start ∧ node.stop ≤ block.stop
  inner : ∀ b ∈ root.preorder, b.kind = .braceBlock → b.start ≤ node.start → node.stop ≤ b.stop →
    b.start ≤ block.start ∧ block.stop ≤ b.stop

namespace Analysis

variable {s : Source} {v : Visit}

/-- The nearest block above an item is the innermost one around it. -/
theorem innermost_of_enclosing (hv : v ∈ (of s).visits) (hitem : v.tree.kind.isItem = true) {block : Tree}
    (hblock : v.enclosing .braceBlock = some block) : (of s).tree.Innermost v.tree block := by
  obtain ⟨hkind, front, rest, habove, hfront⟩ := List.find?_eq_some_iff_append.1 hblock
  simp only [beq_iff_eq] at hkind
  simp only [Bool.not_eq_true', beq_eq_false_iff_ne] at hfront
  obtain ⟨hvisit, hbelow⟩ := Tree.visit_of_above hv habove
  have hin : v.tree ∈ block.preorder := Tree.mem_preorder_iff.2 (.inr hbelow)
  have hmem : block ∈ (of s).preorder := List.mem_map_of_mem hvisit
  refine ⟨hmem, hkind, range_of_mem hmem hin, fun b hb hb' hstart hstop ↦ ?_⟩
  have hnode : v.tree ∈ (of s).preorder := List.mem_map_of_mem hv
  have hlt := (Tree.itemized_ofFoci s.tokens v.tree hnode hitem).start.2.1
  have hcovers : v.tree.covers v.tree.start = true := Tree.covers_iff.2 ⟨Nat.le_refl _, hlt⟩
  have hcovers' : b.covers v.tree.start = true := Tree.covers_iff.2 ⟨hstart, Nat.lt_of_lt_of_le hlt hstop⟩
  rcases mem_or_above hv hb hcovers hcovers' with hb'' | habove'
  · have hne : b ≠ v.tree := by
      rintro rfl
      rw [hb'] at hitem
      cases hitem
    exact absurd hstart (Nat.not_le.2 (start_lt_of_item hnode hitem hb'' hne))
  · rw [habove] at habove'
    rcases List.mem_append.1 habove' with hfar | hfar
    · exact absurd hb' (hfront b hfar)
    · rcases List.mem_cons.1 hfar with rfl | hfar
      · exact ⟨Nat.le_refl _, Nat.le_refl _⟩
      · exact range_of_mem hb (Tree.mem_preorder_of_above hvisit hfar).2

end Analysis

namespace Rule.Keywords

variable {visits : List Visit} {token : Nat}

theorem smallest_spec (best : Visit) (vs : List Visit) :
    smallest best vs ∈ best :: vs ∧ ∀ v ∈ best :: vs, (smallest best vs).tree.size ≤ v.tree.size := by
  induction vs generalizing best with
  | nil => simp [smallest]
  | cons v vs ih =>
    rw [smallest]
    split
    case isTrue hlt =>
      obtain ⟨hmem, hle⟩ := ih v
      rw [List.forall_mem_cons] at hle
      refine ⟨List.mem_cons_of_mem _ hmem, ?_⟩
      rw [List.forall_mem_cons, List.forall_mem_cons]
      exact ⟨Nat.le_trans hle.1 (Nat.le_of_lt hlt), hle⟩
    case isFalse hlt =>
      obtain ⟨hmem, hle⟩ := ih best
      rw [List.forall_mem_cons] at hle
      refine ⟨?_, ?_⟩
      · rcases List.mem_cons.1 hmem with hmem | hmem
        · rw [hmem]
          exact List.mem_cons_self ..
        · exact List.mem_cons_of_mem _ (List.mem_cons_of_mem _ hmem)
      · rw [List.forall_mem_cons, List.forall_mem_cons]
        exact ⟨hle.1, Nat.le_trans hle.1 (Nat.not_lt.1 hlt), hle.2⟩

/-- If a token is in a block, then it is in one that has no more tokens than the others it is in. -/
theorem innermostBlock_spec {v : Visit} (hv : v ∈ visits) (hkind : v.tree.kind = .braceBlock)
    (hcovers : v.tree.covers token = true) :
    ∃ w ∈ visits, innermostBlock visits token = some w ∧ w.tree.kind = .braceBlock ∧ w.tree.covers token = true ∧
      ∀ u ∈ visits, u.tree.kind = .braceBlock → u.tree.covers token = true → w.tree.size ≤ u.tree.size := by
  have hholds {u : Visit} : u ∈ visits.filter (fun v ↦ v.tree.kind == .braceBlock && v.tree.start ≤ token &&
      token < v.tree.stop) ↔ u ∈ visits ∧ u.tree.kind = .braceBlock ∧ u.tree.covers token = true := by
    rw [List.mem_filter, Tree.covers_iff]
    simp [and_assoc]
  unfold innermostBlock
  dsimp only
  split
  · rename_i hnil
    have hmem := hholds.2 ⟨hv, hkind, hcovers⟩
    rw [hnil] at hmem
    cases hmem
  · rename_i first rest hcons
    obtain ⟨hmem, hle⟩ := smallest_spec first rest
    rw [← hcons] at hmem hle
    obtain ⟨hw, hk, hc⟩ := hholds.1 hmem
    exact ⟨_, hw, rfl, hk, hc, fun u hu hk hc ↦ hle u (hholds.2 ⟨hu, hk, hc⟩)⟩

section

variable {s : Source} {w : Visit} {scope : Tree}

theorem reaches_iff (hw : w ∈ (Analysis.of s).visits) (hscope : scope ∈ (Analysis.of s).preorder) :
    reaches scope w = true ↔ scope = w.tree ∨ scope ∈ w.above := by
  have hid {u : Tree} (hu : u ∈ (Analysis.of s).preorder) : u.id = scope.id ↔ u = scope :=
    ⟨Analysis.eq_of_id hu hscope, congrArg Tree.id⟩
  simp only [reaches, Bool.or_eq_true, beq_iff_eq, List.any_eq_true]
  refine or_congr ((hid (List.mem_map_of_mem hw)).trans eq_comm) ⟨?_, fun h ↦ ⟨scope, h, rfl⟩⟩
  rintro ⟨u, hu, hsame⟩
  exact (hid (Tree.mem_preorder_of_above hw hu).1).1 hsame ▸ hu

/-- The innermost block of a token lies in all blocks that have the token. -/
theorem reaches_iff_covers (hw : w ∈ (Analysis.of s).visits) (hwkind : w.tree.kind = .braceBlock)
    (hwtoken : w.tree.covers token = true) (hscope : scope ∈ (Analysis.of s).preorder)
    (hleast : scope.covers token = true → w.tree.size ≤ scope.size) :
    reaches scope w = true ↔ scope.covers token = true := by
  have hwmem : w.tree ∈ (Analysis.of s).preorder := List.mem_map_of_mem hw
  rw [reaches_iff hw hscope]
  constructor
  · rintro (rfl | habove)
    · exact hwtoken
    · exact Analysis.covers_of_mem hscope (Tree.mem_preorder_of_above hw habove).2 hwtoken
  · intro hcovers
    rcases Analysis.mem_or_above hw hscope hwtoken hcovers with hin | habove
    · -- no block inside of another has as many tokens
      left
      obtain ⟨hstart, hstop⟩ := Analysis.range_of_mem hwmem hin
      have hsize := hleast hcovers
      have htoken := Tree.covers_iff.1 hcovers
      unfold Tree.size at hsize
      exact Analysis.eq_of_block_start hwmem hwkind hin (by omega)
    · exact .inr habove

variable {fn : FunctionFact} {body : Tree} {g : GotoFact} {label : Name}

theorem goto_covered (hfn : fn.Sound (Analysis.of s).foci (Analysis.of s).visits) (hb : fn.body = some body)
    (hg : g ∈ fn.gotos) : body.covers g.keyword.token = true := by
  rw [hfn.gotos, hb, Option.map_some, Option.getD_some] at hg
  obtain ⟨⟨f, hf, hname⟩, -⟩ := Facts.gotos_from (P := (· ∈ body.foci (Analysis.of s).foci)) (fun _ hf ↦ hf) g hg
  rw [hname]
  exact (Analysis.mem_node_foci.1 hf).2

/-- An item in the body of a function has its innermost block in the body. -/
theorem innermost_in_body (hfn : fn.Sound (Analysis.of s).foci (Analysis.of s).visits) (hb : fn.body = some body)
    {v : Visit} (hv : v ∈ bodyVisits fn body) (hitem : v.tree.kind.isItem = true) :
    ∃ block ∈ body.preorder, v.enclosing .braceBlock = some block ∧
      (Analysis.of s).tree.Innermost v.tree block := by
  obtain ⟨hkind, hvisit⟩ := hfn.body_visit hb
  have hmem : v ∈ (Analysis.of s).visits := Tree.visits_subset hvisit hv
  have hin : v.tree ∈ body.preorder := Tree.map_tree_visits _ body ▸ List.mem_map_of_mem hv
  have habove : body ∈ v.above := by
    rw [bodyVisits, Tree.visits_eq_cons] at hv
    rcases List.mem_cons.1 hv with rfl | hv
    · rw [hkind] at hitem
      cases hitem
    · obtain ⟨c, -, hv⟩ := List.mem_flatMap.1 hv
      exact Tree.above_subset hv (List.mem_cons_self ..)
  obtain ⟨block, hblock⟩ : ∃ block, v.enclosing .braceBlock = some block := by
    rw [Visit.enclosing, ← Option.isSome_iff_exists, List.find?_isSome]
    exact ⟨body, habove, by simp [hkind]⟩
  have hinnermost := Analysis.innermost_of_enclosing hmem hitem hblock
  refine ⟨block, ?_, hblock, hinnermost⟩
  have hbody : body ∈ (Analysis.of s).preorder := List.mem_map_of_mem hvisit
  obtain ⟨hstart, hstop⟩ := Analysis.range_of_mem hbody hin
  obtain ⟨hle, hle'⟩ := hinnermost.inner body hbody hkind hstart hstop
  have hlt := (Tree.itemized_ofFoci s.tokens v.tree (List.mem_map_of_mem hmem) hitem).start.2.1
  have hnode : block.covers v.tree.start = true :=
    Tree.covers_iff.2 ⟨hinnermost.around.1, Nat.lt_of_lt_of_le hlt hinnermost.around.2⟩
  have hnode' : body.covers v.tree.start = true := Tree.covers_iff.2 ⟨hstart, Nat.lt_of_lt_of_le hlt hstop⟩
  rcases Analysis.mem_or_above hvisit hinnermost.mem hnode' hnode with hin | hfar
  · exact hin
  · -- a block around the body that lies in it as well is the body
    have haround := (Tree.mem_preorder_of_above hvisit hfar).2
    rw [← Analysis.eq_of_block_start hinnermost.mem hinnermost.kind haround hle]
    exact Tree.self_mem_preorder body

/-- A `goto` to a label of its function is judged by the innermost block around the label. -/
theorem gotoScopeAt_target (hfn : fn.Sound (Analysis.of s).foci (Analysis.of s).visits) (hb : fn.body = some body)
    (hg : g ∈ fn.gotos) (htarget : targetOf fn g = some label) :
    ∃ node block, node ∈ (Analysis.of s).preorder ∧ node.kind = .label ∧ node.head.name = some label.token ∧
      (Analysis.of s).tree.Innermost node block ∧
      gotoScopeAt fn body g = .found (if block.covers g.keyword.token then []
        else [⟨g.target.span, s!"goto jumps into a nested block to reach '{g.target.text}'", none⟩]) := by
  obtain ⟨hkind, hvisit⟩ := hfn.body_visit hb
  have hsub : bodyVisits fn body ⊆ (Analysis.of s).visits := Tree.visits_subset hvisit
  obtain ⟨node, hfind⟩ : ∃ node, (bodyVisits fn body).find? (fun v ↦ v.tree.kind == .label &&
      v.tree.head.name == some label.token) = some node := by
    obtain ⟨v, hv, hkind, hname⟩ := label_node (r := ⟨Analysis.of s, default, fun _ ↦ false⟩) rfl hfn hb
      (mem_of_targetOf htarget)
    rw [← Option.isSome_iff_exists, List.find?_isSome]
    exact ⟨v, hv, by simp [hkind, hname]⟩
  have hnode := List.mem_of_find?_eq_some hfind
  have hlabel := List.find?_some hfind
  simp only [Bool.and_eq_true, beq_iff_eq] at hlabel
  obtain ⟨block, hin, hblock, hinnermost⟩ := innermost_in_body hfn hb hnode (by rw [hlabel.1]; rfl)
  have hfirst : ⟨body, fn.node.tree :: fn.node.above⟩ ∈ bodyVisits fn body := by
    rw [bodyVisits, Tree.visits_eq_cons]
    exact List.mem_cons_self ..
  obtain ⟨w, hw, hinner, hwkind, hwtoken, hleast⟩ := innermostBlock_spec hfirst hkind (goto_covered hfn hb hg)
  have hreaches : reaches block w = true ↔ block.covers g.keyword.token = true := by
    refine reaches_iff_covers (hsub hw) hwkind hwtoken hinnermost.mem fun hcovers ↦ ?_
    rw [← Tree.map_tree_visits (fn.node.tree :: fn.node.above)] at hin
    obtain ⟨u, hu, rfl⟩ := List.mem_map.1 hin
    exact hleast u hu hinnermost.kind hcovers
  refine ⟨node.tree, block, List.mem_map_of_mem (hsub hnode), hlabel.1, hlabel.2, hinnermost, ?_⟩
  simp only [gotoScopeAt, htarget, hfind, hblock, hinner, Option.getD_some]
  by_cases hcovers : block.covers g.keyword.token = true
  · rw [if_pos (hreaches.2 hcovers), if_pos hcovers]
    rfl
  · rw [if_neg fun h ↦ hcovers (hreaches.1 h), if_neg hcovers]

theorem goto_body (hfn : fn.Sound (Analysis.of s).foci (Analysis.of s).visits) (hg : g ∈ fn.gotos) :
    ∃ body, fn.body = some body := by
  cases hb : fn.body with
  | none => simp [hfn.gotos, hb] at hg
  | some body => exact ⟨body, rfl⟩

/-- The check of a `goto` does not fail. -/
theorem gotoScopeAt_found (hfn : fn.Sound (Analysis.of s).foci (Analysis.of s).visits) (hb : fn.body = some body)
    (hg : g ∈ fn.gotos) : gotoScopeAt fn body g = .found (gotoScopeAt fn body g).findings := by
  cases htarget : targetOf fn g with
  | none => simp only [gotoScopeAt, htarget, Outcome.found]
  | some label =>
    obtain ⟨_, _, -, -, -, -, heq⟩ := gotoScopeAt_target hfn hb hg htarget
    rw [heq]
    rfl

end

/-- What is said of each `goto` of each function, in order: one without a label of its function to jump to is
reported, and one with a label if it stands outside of the innermost block around the label. -/
theorem gotoScope_ranges (s : Source) (limits : Limits) (cancelled : Nat → Bool) :
    ∃ jumps : FunctionFact → GotoFact → List Finding,
      gotoScope ⟨Analysis.of s, limits, cancelled⟩ =
        .found ((Analysis.of s).facts.functions.flatMap fun fn ↦ fn.gotos.flatMap (jumps fn)) ∧
      ∀ fn ∈ (Analysis.of s).facts.functions, ∀ g ∈ fn.gotos,
        (targetOf fn g = none → jumps fn g =
          [⟨g.target.span, s!"goto target '{g.target.text}' is not a label in '{fn.name.text}'", none⟩]) ∧
        ∀ label, targetOf fn g = some label → ∃ node block, node ∈ (Analysis.of s).preorder ∧ node.kind = .label ∧
          node.head.name = some label.token ∧ (Analysis.of s).tree.Innermost node block ∧
          jumps fn g = if block.covers g.keyword.token then []
            else [⟨g.target.span, s!"goto jumps into a nested block to reach '{g.target.text}'", none⟩] := by
  have hsound := (RuleInput.facts_sound (r := ⟨Analysis.of s, limits, cancelled⟩) rfl).functions
  refine ⟨fun fn g ↦ (fn.body.map fun body ↦ (gotoScopeAt fn body g).findings).getD [], ?_, fun fn hfn g hg ↦ ?_⟩
  · refine Outcome.each_eq_found fun fn hfn ↦ ?_
    cases hb : fn.body with
    | none =>
      rw [(hsound fn hfn).gotos, hb]
      rfl
    | some body =>
      refine Outcome.each_eq_found fun g hg ↦ ?_
      simp only [hb, Option.map_some, Option.getD_some]
      exact gotoScopeAt_found (hsound fn hfn) hb hg
  · obtain ⟨body, hb⟩ := goto_body (hsound fn hfn) hg
    simp only [hb, Option.map_some, Option.getD_some]
    refine ⟨fun htarget ↦ ?_, fun label htarget ↦ ?_⟩
    · simp only [gotoScopeAt, htarget, Outcome.found]
    · obtain ⟨node, block, hmem, hkind, hname, hinnermost, heq⟩ := gotoScopeAt_target (hsound fn hfn) hb hg htarget
      exact ⟨node, block, hmem, hkind, hname, hinnermost, congrArg Outcome.findings heq⟩

-- Of the two jumps to `x`, the first comes from outside of its block.
example : (gotoScope ⟨Analysis.of ⟨"", Text.bytesOf "void f()\x7bgoto x;\x7bx:goto x;\x7d\x7d"⟩, {},
    fun _ ↦ false⟩).findings.map (·.span.startByte) = [14] := by
  decide +kernel

end Rule.Keywords

end CodeStyle
