import CodeStyle.Proofs.Enclosure

/-!
The node to which a token belongs. Every token that is kept and no brace is owned by an item, or by a block
that lies too deep to be read.
-/

namespace CodeStyle

open Braces (Plain)

namespace Outline

/-- The `i`-th token is owned by a node of these that has only blocks below it. -/
def Owned (os : List Outline) (i : Nat) : Prop :=
  ∃ o ∈ preorderAll os, o.head.Owns (o.children.map head) i ∧ ∀ c ∈ o.children.map head, c.kind = .braceBlock

namespace Owned

variable {os us : List Outline} {i : Nat}

theorem append_left (h : Owned os i) : Owned (os ++ us) i := by
  obtain ⟨o, ho, howns⟩ := h
  exact ⟨o, by simp [preorderAll_append, ho], howns⟩

theorem append_right (h : Owned us i) : Owned (os ++ us) i := by
  obtain ⟨o, ho, howns⟩ := h
  exact ⟨o, by simp [preorderAll_append, ho], howns⟩

theorem below (h : Owned os i) (top : NodeHead) : Owned [node top os] i := by
  obtain ⟨o, ho, howns⟩ := h
  exact ⟨o, by simp [ho], howns⟩

theorem foldl {ts : List Forest} {t : Forest} (h : Owned t.nodes i) (ht : t ∈ ts) :
    Owned (ts.foldl Forest.append Forest.empty).nodes i := by
  obtain ⟨o, ho, howns⟩ := h
  exact ⟨o, Forest.mem_nodes_foldl.2 ⟨t, ht, ho⟩, howns⟩

end Owned

section

variable {all rest : List Focus} {i depth : Nat} {g : BraceGroup} {inFunction : Bool} {f : Focus}

theorem block_owned {region : List Focus} (hall : Focus.Consecutive 0 all) (hplaced : Focus.Placed all (i + 1) rest)
    (hregion : ∀ q ∈ region, q ∈ all) (hfits : g.Fits rest (Braces.of region))
    (hat : g.opening.index = i + g.skip) (hinside : g.skip + g.inside ≤ rest.length)
    (hread : ∀ f ∈ g.content rest, f.token.isKept = true → Plain f →
      Owned (forest (depth + 1) inFunction false (g.content rest)).nodes f.index)
    (hf : f ∈ all) (hkept : f.token.isKept = true) (hplain : Plain f) (hholds : g.Holds f.index) :
    Owned (Forest.block g (inside depth inFunction (g.content rest))).nodes f.index := by
  have hplace : Focus.Placed all (g.opening.index + 1) (g.content rest) := by
    have h := (hplaced.drop g.skip).take g.inside
    rwa [show i + 1 + g.skip = g.opening.index + 1 by omega] at h
  have hlen : (g.content rest).length = g.inside := by
    rw [BraceGroup.content, List.length_take, List.length_drop]
    omega
  obtain ⟨hlow, hhigh⟩ := hholds
  have hopening : f.index ≠ g.opening.index := by
    intro hindex
    obtain ⟨hmem, hbrace⟩ := hfits.opening
    obtain rfl := hall.eq_of_index hf (hregion _ hmem) hindex
    exact Braces.not_plain_of_open hbrace hplain
  have hcontent : f.index < g.opening.index + 1 + g.inside := by
    by_contra hlate
    cases hcase : g.closed with
    | false =>
      rw [BraceGroup.size, hcase, if_neg (by decide)] at hhigh
      omega
    | true =>
      obtain ⟨-, close, hpair, hindex⟩ := hfits.closed hcase
      rw [BraceGroup.size, if_pos hcase] at hhigh hindex
      obtain ⟨-, hmem, hbrace⟩ := (Braces.of_from region).pairs _ _ hpair
      obtain rfl := hall.eq_of_index hf (hregion _ hmem) (by omega)
      exact Braces.not_plain_of_close hbrace hplain
  unfold inside
  split
  · refine ⟨_, List.mem_cons_self .., ⟨hlow, hhigh, ?_⟩, ?_⟩ <;> simp [Outline.children, Forest.empty]
  · exact (hread f (hplace.mem hall hf (by omega) (by omega)) hkept hplain).below _

end

/-- Every token of a region but its braces is owned. -/
theorem forest_owned {all region : List Focus} {i : Nat} (depth : Nat) (inFunction recovering : Bool)
    (hall : Focus.Consecutive 0 all) (hplaced : Focus.Placed all i region) :
    ∀ f ∈ region, f.token.isKept = true → Plain f →
      Owned (forest depth inFunction recovering region).nodes f.index := by
  fun_induction forest depth inFunction recovering region generalizing i with
  | case1 => simp
  | case2 _ _ _ f rest hf =>
    rename_i ih
    intro q hq hkept hplain
    rcases List.mem_cons.1 hq with rfl | hq
    · simp [Token.isKept, hf] at hkept
    · exact ih hplaced.tail q hq hkept hplain
  | case3 _ _ f rest _ hf =>
    rename_i ih
    intro q hq hkept hplain
    rcases List.mem_cons.1 hq with rfl | hq
    · exact absurd hplain (Braces.not_plain_of_close hf)
    · exact (ih hplaced.tail q hq hkept hplain).append_right
  | case4 _ _ _ f rest _ hf =>
    rename_i ih
    intro q hq hkept hplain
    rcases List.mem_cons.1 hq with rfl | hq
    · exact absurd hplain (Braces.not_plain_of_close hf)
    · exact ((ih hplaced.tail q hq hkept hplain).below _).append_right
  | case5 depth inFunction recovering f rest _ _ hf g content ihInside =>
    rename_i ihRest
    intro q hq hkept hplain
    have hc := hplaced.consecutive hall
    obtain ⟨hskip, hat, hinside⟩ := BraceGroup.of_front (g := g) hc rfl
    obtain ⟨-, hfits, -, -⟩ := ItemDraft.front_group_fits hc hf (g := g) rfl rfl
    have hcontent : rest.take g.inside = g.content rest := by rw [BraceGroup.content, hskip, List.drop_zero]
    have ht : content = inside depth inFunction (g.content rest) := by
      rw [← hcontent]
      rfl
    rw [hcontent] at ihInside
    rw [ht, ← g.drop_size f]
    rw [← g.drop_size f] at ihRest
    rw [← List.take_append_drop g.size (f :: rest)] at hq
    rcases List.mem_append.1 hq with hq | hq
    · apply Owned.append_left
      have hmem : ∀ x ∈ (f :: rest).take g.size, x ∈ all := fun x hx ↦ hplaced.mem_all (List.mem_of_mem_take hx)
      have hindex := (hc.take g.size).index_mem hq
      have hlength : ((f :: rest).take g.size).length ≤ g.size := List.length_take_le ..
      exact block_owned hall hplaced.tail hmem hfits hat hinside
        (ihInside ((hplaced.tail.drop g.skip).take g.inside)) (hmem q hq) hkept hplain ⟨by omega, by omega⟩
    · exact (ihRest (hplaced.drop g.size) q hq hkept hplain).append_right
  | case6 depth inFunction recovering f rest _ hclose hopen d blocks ihInside =>
    rename_i ihRest
    intro q hq hkept hplain
    have hc := hplaced.consecutive hall
    have hfirst : Plain f := ⟨by simpa using hopen, by simpa using hclose⟩
    have hbraced : d.Braced (f :: rest) := ItemDraft.of_braced hc hfirst inFunction
    have hsound : d.Sound (fun _ ↦ True) i (rest.length + 1) :=
      ItemDraft.of_sound ⟨hc, fun _ _ ↦ trivial, Nat.zero_add _⟩ inFunction
    rw [← List.take_append_drop (d.more + 1) (f :: rest)] at hq
    rcases List.mem_append.1 hq with hq | hq
    · apply Owned.append_left
      have hmem : ∀ x ∈ (f :: rest).take (d.more + 1), x ∈ all := fun x hx ↦
        hplaced.mem_all (List.mem_of_mem_take hx)
      by_cases hgroup : ∃ g ∈ d.groups, g.Holds q.index
      · obtain ⟨g, hg, hholds⟩ := hgroup
        have hhigh := hsound.groups.le_high g hg
        have hmore := hsound.more_lt
        have hpos := g.inside_lt_size
        have hblock := block_owned hall hplaced.tail hmem (hbraced.records.fits g hg) (hsound.groups.at_skip g hg)
          (by omega) (ihInside g ((hplaced.tail.drop g.skip).take g.inside)) (hmem q hq) hkept hplain hholds
        exact (hblock.foldl (List.mem_map.2 ⟨g, hg, rfl⟩)).below _
      · have hindex := (hc.take (d.more + 1)).index_mem hq
        have hlength : ((f :: rest).take (d.more + 1)).length ≤ d.more + 1 := List.length_take_le ..
        have howns : d.Owns f.index q.index := by
          refine ⟨?_, ?_, fun g hg hholds ↦ hgroup ⟨g, hg, hholds⟩⟩ <;> rw [hc.head] <;> omega
        refine ⟨_, List.mem_cons_self .., Forest.item_owns (List.mem_singleton_self _) howns, ?_⟩
        rw [Outline.children, Forest.heads_blocks]
        intro c hin
        obtain ⟨g, -, rfl⟩ := List.mem_map.1 hin
        rfl
    · exact (ihRest (hplaced.tail.drop d.more) q hq hkept hplain).append_right

end Outline

namespace Tree

mutual

theorem mem_number (next : Nat) (o : Outline) {u : Outline} (hu : u ∈ o.preorder) :
    ∃ t ∈ (number next o).1.preorder, t.head = u.head ∧ t.children.map head = u.children.map Outline.head := by
  cases o with
  | node top children =>
    rw [Outline.preorder] at hu
    rcases List.mem_cons.1 hu with rfl | hu
    · exact ⟨_, self_mem_preorder _, rfl, heads_numberAll (next + 1) children⟩
    · obtain ⟨t, ht, hsame⟩ := mem_numberAll (next + 1) children hu
      exact ⟨t, mem_preorder_iff.2 (.inr (List.mem_flatMap.1 ht)), hsame⟩

theorem mem_numberAll (next : Nat) (os : List Outline) {u : Outline} (hu : u ∈ Outline.preorderAll os) :
    ∃ t ∈ (numberAll next os).1.flatMap preorder, t.head = u.head ∧
      t.children.map head = u.children.map Outline.head := by
  cases os with
  | nil => cases hu
  | cons o os =>
    rw [Outline.preorderAll] at hu
    rcases List.mem_append.1 hu with hu | hu
    · obtain ⟨t, ht, hsame⟩ := mem_number next o hu
      exact ⟨t, by rw [numberAll, List.flatMap_cons]; exact List.mem_append_left _ ht, hsame⟩
    · obtain ⟨t, ht, hsame⟩ := mem_numberAll (number next o).2 os hu
      exact ⟨t, by rw [numberAll, List.flatMap_cons]; exact List.mem_append_right _ ht, hsame⟩

end

/-- No node is lost when siblings are grouped. -/
theorem Grouping.subset_foldl (g : Grouping) (ts : List Tree) :
    (g.siblings ++ ts).flatMap preorder ⊆ (ts.foldl step g).siblings.flatMap preorder := by
  induction ts generalizing g with
  | nil =>
    rw [List.append_nil]
    exact List.Subset.refl _
  | cons t ts ih =>
    intro u hu
    apply ih (g.step t)
    rw [List.append_cons, List.flatMap_append] at hu
    rw [List.flatMap_append]
    rcases List.mem_append.1 hu with hu | hu
    · apply List.mem_append_left
      rcases g.step_cases t with ⟨hs, -⟩ | ⟨front, members, hg, hs, -⟩
      · rwa [hs]
      · rw [hg, List.append_assoc, List.flatMap_append] at hu
        rw [hs, List.flatMap_append, List.flatMap_singleton]
        rcases List.mem_append.1 hu with hu | hu
        · exact List.mem_append_left _ hu
        · exact List.mem_append_right _ (mem_preorder_iff.2 (.inr (List.mem_flatMap.1 hu)))
    · exact List.mem_append_right _ hu

theorem siblings_group_blocks {ts : List Tree} (h : ∀ t ∈ ts, t.kind = .braceBlock) (next : Nat) :
    (group next ts).siblings = ts :=
  Grouping.siblings_foldl_other fun t ht ↦ by simp [mark, h t ht]

mutual

/-- Grouping keeps the nodes with only blocks below them. -/
theorem mem_regroup (next : Nat) (t : Tree) {u : Tree} (hu : u ∈ t.preorder)
    (hblocks : ∀ c ∈ u.children.map head, c.kind = .braceBlock) :
    ∃ w ∈ (regroup next t).1.preorder, w.head = u.head ∧ w.children.map head = u.children.map head := by
  cases t with
  | node id top children =>
    rcases mem_preorder_iff.1 hu with rfl | ⟨c, hc, hu⟩
    · have hheads := heads_regroupAll (group next children).next children
      have hsame : (group next (regroupAll (group next children).next children).1).siblings =
          (regroupAll (group next children).next children).1 :=
        siblings_group_blocks (fun c hc ↦ hblocks c.head (hheads ▸ List.mem_map_of_mem hc)) next
      refine ⟨_, self_mem_preorder _, rfl, ?_⟩
      rw [regroup, Tree.children, hsame, hheads]
      rfl
    · obtain ⟨w, hw, hsame⟩ :=
        mem_regroupAll (group next children).next children (List.mem_flatMap.2 ⟨c, hc, hu⟩) hblocks
      have hgroup := Grouping.subset_foldl ⟨[], [], 0, next⟩ (regroupAll (group next children).next children).1
      exact ⟨w, mem_preorder_iff.2 (.inr (List.mem_flatMap.1 (hgroup hw))), hsame⟩

theorem mem_regroupAll (next : Nat) (ts : List Tree) {u : Tree} (hu : u ∈ ts.flatMap preorder)
    (hblocks : ∀ c ∈ u.children.map head, c.kind = .braceBlock) :
    ∃ w ∈ (regroupAll next ts).1.flatMap preorder, w.head = u.head ∧ w.children.map head = u.children.map head := by
  cases ts with
  | nil => cases hu
  | cons t ts =>
    rw [List.flatMap_cons] at hu
    rcases List.mem_append.1 hu with hu | hu
    · obtain ⟨w, hw, hsame⟩ := mem_regroup next t hu hblocks
      exact ⟨w, by rw [regroupAll, List.flatMap_cons]; exact List.mem_append_left _ hw, hsame⟩
    · obtain ⟨w, hw, hsame⟩ := mem_regroupAll (regroup next t).2 ts hu hblocks
      exact ⟨w, by rw [regroupAll, List.flatMap_cons]; exact List.mem_append_right _ hw, hsame⟩

end

section

variable {tokens : List Token} {v : Visit} {f : Focus}

/-- A block that owns more than its braces is too deep to be read. -/
theorem deep_of_owns (hv : v ∈ (ofOutline (Outline.ofFoci (Focus.all tokens)).1).visits [])
    (hkind : v.tree.kind = .braceBlock) (hf : f ∈ Focus.all tokens) (hkept : f.token.isKept = true) (hplain : Plain f)
    (howns : v.tree.Owns f.index) : maxDepth ≤ v.above.countP isBlock := by
  have hall := Focus.all_consecutive tokens
  have hbraces := Braces.of_from (Focus.all tokens)
  have hfilled := root_visits_filled (by rintro ⟨⟩) (full_ofFoci tokens).1 v hv
  obtain ⟨hlow, hhigh, houtside⟩ := howns
  have hheld : ¬Holds v.tree.children f.index := by
    rintro ⟨c, hc, hcovers⟩
    exact houtside c.head (List.mem_map_of_mem hc) (covers_iff.1 hcovers)
  cases hrecovered : v.tree.head.recovered with
  | true =>
    have hstray := (hfilled.recovered hkind hrecovered f hf hkept hlow hhigh).resolve_right hheld
    exact absurd hplain (Braces.not_plain_of_close (hbraces.strays f hstray).2)
  | false =>
    by_contra hdepth
    have hblock : v.tree.head.isBlock = true := by
      rw [NodeHead.isBlock, hrecovered, show v.tree.head.kind = .braceBlock from hkind]
      rfl
    rcases hfilled.block hblock (Nat.not_le.1 hdepth) f hf hkept hlow hhigh with hstart | ⟨o, hpair, -⟩ | hin
    · obtain ⟨q, hq, hindex, hbrace⟩ := (bracketed_ofFoci tokens v.tree (List.mem_map_of_mem hv) hkind).brace
      obtain rfl := hall.eq_of_index hf hq (hstart.trans hindex.symm)
      exact hbrace hplain
    · exact Braces.not_plain_of_close (hbraces.pairs o f hpair).2.2 hplain
    · exact hheld hin

/-- Every token that is kept and no brace is owned by an item, or by a block too deep to be read. -/
theorem owner_ofFoci (hf : f ∈ Focus.all tokens) (hkept : f.token.isKept = true) (hplain : Plain f) :
    ∃ v ∈ (ofOutline (Outline.ofFoci (Focus.all tokens)).1).visits [], v.tree.Owns f.index ∧
      (v.tree.kind.isItem = true ∨ v.tree.kind = .braceBlock ∧ maxDepth ≤ v.above.countP isBlock) := by
  have hall := Focus.all_consecutive tokens
  obtain ⟨o, ho, howns, hblocks⟩ := Outline.forest_owned 0 false false hall (.self _) f hf hkept hplain
  obtain ⟨u, hu, huhead, huchildren⟩ := mem_number 0 _ (Outline.mem_preorder_ofFoci.2 (.inr ho))
  obtain ⟨w, hw, hwhead, hwchildren⟩ := mem_regroup (number 0 (Outline.ofFoci (Focus.all tokens)).1).2 _ hu
    (huchildren ▸ hblocks)
  obtain ⟨v, hv, rfl⟩ := List.mem_map.1 hw
  have hhead : v.tree.head = o.head := hwhead.trans huhead
  have howns' : v.tree.Owns f.index := by
    rw [Owns, hhead, hwchildren, huchildren]
    exact howns
  refine ⟨v, hv, howns', ?_⟩
  rcases Outline.forest_bracketed (P := (· ∈ Focus.all tokens)) 0 false false hall (fun _ hq ↦ hq) o ho with
    hitem | ⟨hkind, -⟩
  · exact .inl ((congrArg (NodeHead.kind · |>.isItem) hhead).trans hitem)
  · have hkind : v.tree.kind = .braceBlock := (congrArg NodeHead.kind hhead).trans hkind
    exact .inr ⟨hkind, deep_of_owns hv hkind hf hkept hplain howns'⟩

end

end Tree

end CodeStyle
