import CodeStyle.Proofs.Coverage
import CodeStyle.Proofs.ItemLayout

/-!
The tree of a condensed file is the condensed tree of the file: the same nodes with the same numbers, over
the tokens that stay.
-/

namespace CodeStyle.Condensing

variable {c : Condensing} {i : Nat} {f : Focus} {rest region : List Focus} {g : BraceGroup}

def head (c : Condensing) (h : NodeHead) : NodeHead :=
  { h with start := c.index h.start, stop := c.index h.stop, name := h.name.map c.index }

def outline (c : Condensing) : Outline → Outline
  | .node h children => .node (c.head h) (children.map c.outline)

def forest (c : Condensing) (t : Forest) : Forest := ⟨t.nodes.map c.outline, t.errors.map c.error⟩

def tree (c : Condensing) : Tree → Tree
  | .node id h children => .node id (c.head h) (children.map c.tree)

theorem forest_append (s t : Forest) : c.forest (s.append t) = (c.forest s).append (c.forest t) := by
  simp [forest, Forest.append]

theorem forest_foldl (blocks : List Forest) (t : Forest) :
    c.forest (blocks.foldl Forest.append t) = (blocks.map c.forest).foldl Forest.append (c.forest t) := by
  induction blocks generalizing t with
  | nil => rfl
  | cons b blocks ih => rw [List.foldl_cons, ih, forest_append, List.map_cons, List.foldl_cons]

theorem forest_ite {deep : Prop} [Decidable deep] (t : Forest) :
    c.forest (if deep then Forest.empty else t) = if deep then Forest.empty else c.forest t := by
  split <;> rfl

/-- The place `n` tokens into a region. -/
theorem index_add (h : Focus.Placed (Focus.all c.tokens) i region) {n : Nat} (hn : n ≤ region.length) :
    c.index (i + n) = c.index i + weight (region.take n) :=
  rank_add h hn

theorem index_add_succ (h : Focus.Placed (Focus.all c.tokens) i (f :: rest)) (hf : f.isSolid = true) {n : Nat}
    (hn : n ≤ rest.length) : c.index (i + n + 1) = c.index i + weight (rest.take n) + 1 := by
  rw [Nat.add_assoc, index_add h (Nat.succ_le_succ hn), List.take_succ_cons, weight_cons_solid hf,
    Nat.add_assoc]

theorem forest_block (h : c.index (g.opening.index + g.size) =
      c.index g.opening.index + (c.group rest g).size) (t : Forest) :
    c.forest (Forest.block g t) = Forest.block (c.group rest g) (c.forest t) := by
  simp only [Forest.block, forest, List.map_cons, List.map_nil, outline, List.map_append, group_errors]
  rw [head, NodeHead.plain]
  simp only [h]
  rfl

theorem forest_recovered (h : Focus.Placed (Focus.all c.tokens) f.index (f :: rest)) (hf : f.isSolid = true)
    (t : Forest) :
    c.forest (Forest.recovered f rest t) = Forest.recovered (c.focus f) (c.foci rest) (c.forest t) := by
  have hstop := index_add_succ h hf (Nat.le_refl _)
  rw [List.take_length] at hstop
  simp only [Forest.recovered, forest, List.map_cons, List.map_nil, outline, head, NodeHead.plain, hstop,
    length_foci]
  rfl

theorem forest_item {d : ItemDraft} (h : Focus.Placed (Focus.all c.tokens) f.index (f :: rest))
    (hf : f.isSolid = true) (hmore : d.more ≤ rest.length) (hkind : d.kind ≠ .commentBlock) (t : Forest) :
    c.forest (Forest.item f d t) = Forest.item (c.focus f) (c.draft rest d) (c.forest t) := by
  have hstop := index_add_succ h hf hmore
  have htrailing : (d.kind == .commentBlock) = false := beq_eq_false_iff_ne.2 hkind
  simp only [Forest.item, forest, List.map_cons, List.map_nil, outline, head, hstop, List.map_append, draft,
    htrailing, Bool.false_and]
  rfl

theorem index_succ (h : f ∈ Focus.all c.tokens) (hf : f.isSolid = true) :
    c.index (f.index + 1) = c.index f.index + 1 :=
  rank_add_one (Focus.placed_of_mem h) hf

/-- A group of an item ends where the condensed group ends. -/
theorem index_group {d : ItemDraft} (h : Focus.Placed (Focus.all c.tokens) i (f :: rest))
    (hsound : d.Sound (fun _ ↦ True) i (rest.length + 1)) (hbraced : d.Braced (f :: rest)) (hg : g ∈ d.groups) :
    c.index (g.opening.index + g.size) = c.index g.opening.index + (c.group rest g).size := by
  have hat := hsound.groups.at_skip g hg
  have hhigh := hsound.groups.le_high g hg
  have hmore := hsound.more_lt
  have hpos := g.inside_lt_size
  have hfits := hbraced.records.fits g hg
  have hfrom := Braces.of_from ((f :: rest).take (d.more + 1))
  have succ {q : Focus} {text : String} (hq : q ∈ (f :: rest).take (d.more + 1))
      (hp : q.token.isPunct text = true) : c.index (q.index + 1) = c.index q.index + 1 :=
    index_succ (h.mem_all (List.mem_of_mem_take hq)) (Token.isSolid_of_isPunct hp)
  have hinside : c.index (g.opening.index + 1 + g.inside) =
      c.index (g.opening.index + 1) + weight (g.content rest) := by
    have hplaced := h.tail.drop g.skip
    rw [Nat.add_right_comm, ← hat] at hplaced
    exact index_add hplaced (by rw [List.length_drop]; omega)
  cases hclosed : g.closed with
  | true =>
    have hsize : g.size = g.inside + 2 := if_pos hclosed
    have hsize' : (c.group rest g).size = weight (g.content rest) + 2 := if_pos hclosed
    obtain ⟨-, close, hpair, hindex⟩ := hfits.closed hclosed
    obtain ⟨⟨hopening, hbrace⟩, hmem, hclose⟩ := hfrom.pairs _ _ hpair
    have hlast : close.index = g.opening.index + 1 + g.inside := by omega
    rw [← hindex, succ hmem hclose, hlast, hinside, succ hopening hbrace, hsize']
    omega
  | false =>
    have hsize : g.size = g.inside + 1 := if_neg (by simp [hclosed])
    have hsize' : (c.group rest g).size = weight (g.content rest) + 1 := if_neg (by simp [group, hclosed])
    have hopens : g.opening ∈ (Braces.of ((f :: rest).take (d.more + 1))).opens := by
      rw [(hfits.unclosed hclosed).1]
      simp
    obtain ⟨hopening, hbrace⟩ := hfrom.opens _ hopens
    rw [hsize, hsize', Nat.add_comm g.inside, ← Nat.add_assoc, hinside, succ hopening hbrace]
    omega

theorem foci_content (rest : List Focus) (g : BraceGroup) :
    c.foci (g.content rest) = (c.group rest g).content (c.foci rest) := by
  rw [BraceGroup.content, foci_take, foci_drop]
  rfl

/-- The blocks of an item are condensed one by one. -/
theorem forest_blocks {d : ItemDraft} (h : Focus.Placed (Focus.all c.tokens) i (f :: rest))
    (hsound : d.Sound (fun _ ↦ True) i (rest.length + 1)) (hbraced : d.Braced (f :: rest))
    {content content' : BraceGroup → Forest}
    (hcontent : ∀ g ∈ d.groups, c.forest (content g) = content' (c.group rest g)) :
    (d.groups.map fun g ↦ Forest.block g (content g)).map c.forest =
      (c.draft rest d).groups.map fun g ↦ Forest.block g (content' g) := by
  simp only [draft, List.map_map]
  apply List.map_congr_left
  intro g hg
  rw [Function.comp_apply, Function.comp_apply, forest_block (index_group h hsound hbraced hg), hcontent g hg]

/-- A region of the file from its `i`-th token on that has no comments. -/
structure Clean (c : Condensing) (i : Nat) (region : List Focus) : Prop where
  placed : Focus.Placed (Focus.all c.tokens) i region
  comments : ∀ f ∈ region, f.token.isComment = false

namespace Clean

theorem drop (h : Clean c i region) (n : Nat) : Clean c (i + n) (region.drop n) :=
  ⟨h.placed.drop n, fun f hf ↦ h.comments f (List.mem_of_mem_drop hf)⟩

theorem tail (h : Clean c i (f :: rest)) : Clean c (i + 1) rest := h.drop 1

theorem take (h : Clean c i region) (n : Nat) : Clean c i (region.take n) :=
  ⟨h.placed.take n, fun f hf ↦ h.comments f (List.mem_of_mem_take hf)⟩

theorem consecutive (h : Clean c i region) : Focus.Consecutive i region :=
  h.placed.consecutive (Focus.all_consecutive c.tokens)

end Clean

/-- What is read of a condensed region is what is read of the region, condensed. -/
theorem forest_foci (depth : Nat) (inFunction recovering : Bool) (h : Clean c i region) :
    c.forest (Outline.forest depth inFunction recovering region) =
      Outline.forest depth inFunction recovering (c.foci region) := by
  have hsolid {f : Focus} (hskip : ¬(f.token.isTrivia || f.token.kind.isInvalid) = true) : f.isSolid = true := by
    simp only [Bool.or_eq_true, not_or] at hskip
    simp [Focus.isSolid, Token.isSolid, hskip.1]
  fun_induction Outline.forest depth inFunction recovering region generalizing i with
  | case1 =>
    rw [foci_nil, Outline.forest]
    rfl
  | case2 depth inFunction recovering f rest hskip ih =>
    rw [ih h.tail]
    by_cases hf : f.isSolid = true
    · rw [foci_cons_solid hf, Outline.forest.eq_def depth inFunction recovering (c.focus f :: c.foci rest)]
      simp only [focus_token, token_isTrivia, token_kind, hskip, if_true]
    · rw [foci_cons_trivia (by simpa using hf)]
  | case3 depth inFunction f rest hskip hclose stray =>
    rename_i ih
    rw [foci_cons_solid (hsolid hskip), Outline.forest, forest_append, ih h.tail]
    simp only [focus_token, token_isTrivia, token_kind, token_isPunct, hskip, hclose, Bool.false_eq_true, if_false,
      if_true]
    rfl
  | case4 depth inFunction recovering f rest hskip hclose stray hrec =>
    rename_i ih
    have hf := hsolid hskip
    obtain rfl := h.consecutive.head
    rw [foci_cons_solid hf, Outline.forest, forest_append, forest_recovered h.placed hf, ih h.tail]
    simp only [focus_token, token_isTrivia, token_kind, token_isPunct, hskip, hclose, hrec, Bool.false_eq_true,
      if_false, if_true]
    rfl
  | case5 depth inFunction recovering f rest hskip hclose hopen g content ihInside =>
    rename_i ihRest
    obtain rfl := h.consecutive.head
    have hg : Opens f rest 0 f rest g := ⟨hsolid hskip, List.drop_zero .., hsolid hskip, _, rfl⟩
    have hof : BraceGroup.of (c.focus f) 0 inFunction (c.foci rest) = c.group rest g := hg.of_foci
    have hopening : g.opening = f := BraceGroup.of_opening ..
    have hstop : c.index (g.opening.index + g.size) = c.index g.opening.index + (c.group rest g).size := by
      rw [hopening, index_add h.placed (BraceGroup.of_size_le ..), hg.weight_size]
    have hinside : c.foci (rest.take g.inside) = (c.foci rest).take (c.group rest g).inside := by
      rw [foci_take, group, hg.content_eq]
    have hcontent : c.forest content = if maxDepth ≤ depth then Forest.empty
        else Outline.forest (depth + 1) inFunction false ((c.foci rest).take (c.group rest g).inside) := by
      rw [← hinside, ← ihInside (h.tail.take _)]
      exact forest_ite _
    rw [foci_cons_solid hg.brace, Outline.forest, forest_append, forest_block hstop, hcontent,
      ihRest (h.tail.drop _), hg.foci_drop]
    simp only [focus_token, token_isTrivia, token_kind, token_isPunct, hskip, hclose, hopen, hof, Bool.false_eq_true,
      if_false, if_true]
  | case6 depth inFunction recovering f rest hskip hclose hopen d blocks ihInside =>
    rename_i ihRest
    obtain rfl := h.consecutive.head
    have hf := hsolid hskip
    have hfirst := h.comments f (List.mem_cons_self ..)
    have hplain : Braces.Plain f := ⟨by simpa using hopen, by simpa using hclose⟩
    have hsound : d.Sound (fun _ ↦ True) f.index (rest.length + 1) :=
      ItemDraft.of_sound ⟨h.consecutive, fun _ _ ↦ trivial, Nat.zero_add _⟩ inFunction
    have hbraced : d.Braced (f :: rest) := ItemDraft.of_braced h.consecutive hplain inFunction
    have hdraft : ItemDraft.of inFunction (c.focus f) (c.foci rest) = c.draft rest d :=
      (draft_of hf hfirst (fun q hq ↦ h.placed.mem_all hq) inFunction).symm
    have hcontent (g : BraceGroup) : c.forest (if maxDepth ≤ depth then Forest.empty
          else Outline.forest (depth + 1) g.inFunction false (g.content rest)) =
        if maxDepth ≤ depth then Forest.empty
        else Outline.forest (depth + 1) g.inFunction false ((c.group rest g).content (c.foci rest)) := by
      have hread : c.forest (Outline.forest (depth + 1) g.inFunction false (g.content rest)) =
          Outline.forest (depth + 1) g.inFunction false (c.foci (g.content rest)) :=
        ihInside g ((h.tail.drop _).take _)
      rw [forest_ite, hread, foci_content]
    have hblocks : blocks.map c.forest = (c.draft rest d).groups.map fun g ↦
        Forest.block g (if maxDepth ≤ depth then Forest.empty
          else Outline.forest (depth + 1) g.inFunction false (g.content (c.foci rest))) :=
      forest_blocks h.placed hsound hbraced fun g _ ↦ hcontent g
    rw [foci_cons_solid hf, Outline.forest, forest_append, forest_item h.placed hf (Nat.le_of_lt_succ hsound.more_lt)
      (ItemDraft.of_kind_ne_commentBlock hfirst inFunction), forest_foldl, hblocks,
      ihRest (h.tail.drop _), foci_drop]
    simp only [focus_token, token_isTrivia, token_kind, token_isPunct, hskip, hclose, hopen, hdraft, Bool.false_eq_true,
      if_false]
    rfl

theorem forest_all (hcomment : ∀ t ∈ c.tokens, t.isComment = false) :
    c.forest (Outline.forest 0 false false (Focus.all c.tokens)) =
      Outline.forest 0 false false (Focus.all (c.solids c.tokens)) := by
  rw [all_solids]
  exact forest_foci 0 false false ⟨.self _, fun f hf ↦ hcomment _ (Focus.token_mem hf)⟩

theorem outline_ofFoci (hcomment : ∀ t ∈ c.tokens, t.isComment = false) :
    c.outline (Outline.ofFoci (Focus.all c.tokens)).1 =
      (Outline.ofFoci (Focus.all (c.solids c.tokens))).1 := by
  have hstop : c.index (Focus.all c.tokens).length = (Focus.all (c.solids c.tokens)).length := by
    have hadd := index_add (.self (Focus.all c.tokens)) (Nat.le_refl _)
    rw [List.take_length, Nat.zero_add] at hadd
    rw [hadd, all_solids, length_foci]
    exact Nat.zero_add _
  have hnodes := congrArg Forest.nodes (forest_all hcomment)
  simp only [Outline.ofFoci, outline, head, NodeHead.plain, hstop, ← hnodes]
  rfl

section

open Tree

theorem tree_id (t : Tree) : (c.tree t).id = t.id := by
  cases t
  rw [tree]
  rfl

theorem tree_head (t : Tree) : (c.tree t).head = c.head t.head := by
  cases t
  rw [tree]
  rfl

theorem tree_children (t : Tree) : (c.tree t).children = t.children.map c.tree := by
  cases t
  rw [tree]
  rfl

theorem tree_start (t : Tree) : (c.tree t).start = c.index t.start := by
  rw [Tree.start, tree_head]
  rfl

theorem tree_stop (t : Tree) : (c.tree t).stop = c.index t.stop := by
  rw [Tree.stop, tree_head]
  rfl

mutual

theorem number_outline (next : Nat) (o : Outline) :
    number next (c.outline o) = (c.tree (number next o).1, (number next o).2) := by
  cases o with
  | node h children =>
    rw [outline, number, numberAll_outline, number]
    dsimp only
    rw [tree]

theorem numberAll_outline (next : Nat) (os : List Outline) :
    numberAll next (os.map c.outline) = ((numberAll next os).1.map c.tree, (numberAll next os).2) := by
  cases os with
  | nil => rfl
  | cons o os =>
    rw [List.map_cons, numberAll, number_outline, numberAll]
    dsimp only
    rw [numberAll_outline]
    rfl

end

theorem mark_tree (t : Tree) : (c.tree t).mark = t.mark := by
  unfold mark kind
  rw [tree_head]
  rfl

def grouping (c : Condensing) (g : Grouping) : Grouping :=
  ⟨g.done.map c.tree, g.pending.map (List.map c.tree), g.flat, g.next⟩

theorem grouping_add (g : Grouping) (t : Tree) : c.grouping (g.add t) = (c.grouping g).add (c.tree t) := by
  unfold Grouping.add
  cases h : g.pending with
  | nil => simp [grouping, h]
  | cons members outer => simp [grouping, h]

theorem index_getD {field : Tree → Nat} (h : ∀ t, field (c.tree t) = c.index (field t)) (o : Option Tree) :
    c.index ((o.map field).getD 0) = ((o.map c.tree).map field).getD 0 := by
  cases o with
  | none => rfl
  | some t => exact (h t).symm

theorem tree_conditional (id : Nat) (members : List Tree) :
    c.tree (conditional id members) = conditional id (members.map c.tree) := by
  unfold conditional
  rw [tree, head, NodeHead.plain]
  dsimp only
  rw [index_getD tree_start, index_getD tree_stop, List.head?_map, List.getLast?_map]
  rfl

theorem grouping_step (g : Grouping) (t : Tree) : c.grouping (g.step t) = (c.grouping g).step (c.tree t) := by
  have hpending : (c.grouping g).pending = g.pending.map (List.map c.tree) := rfl
  have hflat : (c.grouping g).flat = g.flat := rfl
  unfold Grouping.step
  rw [mark_tree, hpending, hflat, List.length_map]
  cases t.mark with
  | opens =>
    dsimp only
    split
    · rfl
    · rw [← grouping_add]
      rfl
  | closes =>
    dsimp only
    split
    · rw [← grouping_add]
      rfl
    · cases g.pending with
      | nil => exact grouping_add g t
      | cons members outer =>
        dsimp only [List.map_cons]
        rw [grouping_add, tree_conditional, List.map_reverse]
        rfl
  | other => exact grouping_add g t

theorem group_trees (next : Nat) (ts : List Tree) :
    Tree.group next (ts.map c.tree) = c.grouping (Tree.group next ts) := by
  have run (g : Grouping) : (ts.map c.tree).foldl Grouping.step (c.grouping g) =
      c.grouping (ts.foldl Grouping.step g) := by
    induction ts generalizing g with
    | nil => rfl
    | cons t ts ih => rw [List.map_cons, List.foldl_cons, List.foldl_cons, ← grouping_step, ih]
  exact run ⟨[], [], 0, next⟩

theorem siblings_grouping (g : Grouping) : (c.grouping g).siblings = g.siblings.map c.tree := by
  simp [Grouping.siblings, grouping, List.map_flatten, Function.comp_def]

mutual

theorem regroup_tree (next : Nat) (t : Tree) :
    regroup next (c.tree t) = (c.tree (regroup next t).1, (regroup next t).2) := by
  cases t with
  | node id h children =>
    rw [tree, regroup, group_trees, regroupAll_trees, regroup]
    dsimp only
    rw [group_trees, siblings_grouping, tree]
    rfl

theorem regroupAll_trees (next : Nat) (ts : List Tree) :
    regroupAll next (ts.map c.tree) = ((regroupAll next ts).1.map c.tree, (regroupAll next ts).2) := by
  cases ts with
  | nil => rfl
  | cons t ts =>
    rw [List.map_cons, regroupAll, regroup_tree, regroupAll]
    dsimp only
    rw [regroupAll_trees]
    rfl

end

theorem tree_ofOutline (o : Outline) : c.tree (ofOutline o) = ofOutline (c.outline o) := by
  unfold ofOutline
  rw [number_outline]
  dsimp only
  rw [regroup_tree]

def visit (c : Condensing) (v : Visit) : Visit := ⟨c.tree v.tree, v.above.map c.tree⟩

theorem visits_tree (above : List Tree) (t : Tree) :
    (c.tree t).visits (above.map c.tree) = (t.visits above).map c.visit := by
  induction t using Tree.induct generalizing above with
  | node id h children ih =>
    rw [visits_eq_cons, visits_eq_cons, List.map_cons, tree_children, List.map_flatMap, List.flatMap_map]
    refine congrArg₂ List.cons rfl (List.flatMap_congr fun t ht ↦ ?_)
    exact ih t ht (.node id h children :: above)

end

end CodeStyle.Condensing
