import CodeStyle.Proofs.RecordedTokens
import CodeStyle.Proofs.TreeShape

/-!
The tokens that a node of the tree has for itself, outside of the nodes below it. No token is owned by two
nodes. An item owns its first token and the token that names it. It is read with all tokens in sight that come
before the end of the file or the brace that closes the block around it.
-/

namespace CodeStyle

/-- Nodes other than the whole file, blocks and conditionals. -/
def NodeKind.isItem : NodeKind → Bool
  | translationUnit | braceBlock | preprocessorBlock => false
  | _ => true

/-- Whether an item of this kind may start with a token. -/
def NodeKind.leads (t : Token) : NodeKind → Bool
  | commentBlock => t.isComment
  | directive | macroDefinition => t.kind == .directive
  | _ => t.isCode

namespace NodeHead

/-- A token of a node that is in none of the nodes `inner` below it. -/
def Owns (h : NodeHead) (inner : List NodeHead) (i : Nat) : Prop :=
  h.start ≤ i ∧ i < h.stop ∧ ∀ c ∈ inner, ¬(c.start ≤ i ∧ i < c.stop)

/-- An item over the nodes `inner`. -/
structure Itemized (P : Focus → Prop) (h : NodeHead) (inner : List NodeHead) : Prop where
  leads : ∃ f, P f ∧ f.index = h.start ∧ h.kind.leads f.token = true
  blocks : ∀ c ∈ inner, c.kind = .braceBlock
  start : h.Owns inner h.start
  name : ∀ i ∈ h.name, h.Owns inner i

end NodeHead

theorem Focus.Consecutive.eq_head {i : Nat} {f q : Focus} {rest : List Focus}
    (h : Consecutive i (f :: rest)) (hq : q ∈ f :: rest) (hi : q.index = i) : q = f := by
  rcases List.mem_cons.1 hq with hq | hq
  · exact hq
  · have hlow := (h.tail.index_mem hq).1
    omega

theorem BraceGroup.Fits.opening {rest region : List Focus} {g : BraceGroup} (h : g.Fits rest (Braces.of region)) :
    g.opening ∈ region ∧ g.opening.token.isPunct "\x7b" = true := by
  have hfrom := Braces.of_from region
  cases hclosed : g.closed with
  | true =>
    obtain ⟨-, close, hpair, -⟩ := h.closed hclosed
    exact (hfrom.pairs g.opening close hpair).1
  | false =>
    refine hfrom.opens g.opening ?_
    rw [(h.unclosed hclosed).1]
    simp

/-- What follows the inside of a group is the brace that closes it. -/
theorem BraceGroup.Fits.closes {rest region : List Focus} {g : BraceGroup} {i : Nat} {f : Focus}
    (h : g.Fits rest (Braces.of region)) (hc : Focus.Consecutive i (f :: rest)) (hregion : region ⊆ f :: rest)
    (hat : g.opening.index = i + g.skip) :
    ∀ q ∈ (rest.drop g.skip)[g.inside]?, q.token.isPunct "\x7d" = true := by
  intro q hq
  rw [List.getElem?_drop] at hq
  cases hclosed : g.closed with
  | true =>
    obtain ⟨-, close, hpair, hindex⟩ := h.closed hclosed
    obtain ⟨-, hmem, hbrace⟩ := (Braces.of_from region).pairs _ _ hpair
    obtain ⟨k, hk⟩ := List.mem_iff_getElem?.1 (hregion hmem)
    have hplace : close.index = i + k := hc k close hk
    rw [size, if_pos hclosed] at hindex
    obtain rfl : k = g.skip + g.inside + 1 := by omega
    obtain rfl : close = q := Option.some.inj (hk.symm.trans hq)
    exact hbrace
  | false =>
    rw [(h.unclosed hclosed).2, List.getElem?_length] at hq
    cases hq

/-- A stretch of the tokens of a file that ends where the file does or before a closing brace. -/
def Focus.Enclosed (all region : List Focus) : Prop :=
  ∃ front back, all = front ++ (region ++ back) ∧ ∀ f ∈ back.head?, f.token.isPunct "\x7d" = true

namespace Focus.Enclosed

variable {all region rest : List Focus} {f : Focus}

theorem self (all : List Focus) : Enclosed all all := ⟨[], [], by simp, by simp⟩

theorem mem (h : Enclosed all region) : ∀ f ∈ region, f ∈ all := by
  obtain ⟨front, back, rfl, -⟩ := h
  intro f hf
  simp [hf]

theorem drop (h : Enclosed all region) (n : Nat) : Enclosed all (region.drop n) := by
  obtain ⟨front, back, rfl, hback⟩ := h
  refine ⟨front ++ region.take n, back, ?_, hback⟩
  rw [List.append_assoc, ← List.append_assoc (region.take n), List.take_append_drop]

theorem tail (h : Enclosed all (f :: rest)) : Enclosed all rest := h.drop 1

theorem take {n : Nat} (h : Enclosed all region) (hn : ∀ f ∈ region[n]?, f.token.isPunct "\x7d" = true) :
    Enclosed all (region.take n) := by
  obtain ⟨front, back, rfl, hback⟩ := h
  refine ⟨front, region.drop n ++ back, ?_, fun f hf ↦ ?_⟩
  · rw [← List.append_assoc (region.take n), List.take_append_drop]
  · rw [List.head?_append, List.head?_drop] at hf
    rcases Option.or_eq_some_iff.1 hf with hf | ⟨-, hf⟩
    · exact hn f hf
    · exact hback f hf

end Focus.Enclosed

theorem ItemDraft.of_leads {first : Focus} (hread : (first.token.isTrivia || first.token.kind.isInvalid) = false)
    (inFunction : Bool) (rest : List Focus) : (of inFunction first rest).kind.leads first.token = true := by
  unfold of
  split
  case isTrue hcomment => exact hcomment
  case isFalse hcomment =>
    split
    case isTrue hdirective =>
      dsimp only [plain]
      split <;> exact hdirective
    case isFalse hdirective =>
      have hcode := Token.isCode_of_read hread (by simpa using hcomment) (by simpa using hdirective)
      have hkind := statement_kind_mem inFunction first rest
      simp only [List.mem_cons, List.not_mem_nil, or_false] at hkind
      rcases hkind with hkind | hkind | hkind | hkind | hkind <;> rw [hkind] <;> exact hcode

namespace Forest

variable {P : Focus → Prop}

theorem heads_blocks (gs : List BraceGroup) (content : BraceGroup → Forest) :
    ((gs.map fun g ↦ block g (content g)).foldl append empty).nodes.map Outline.head =
      gs.map fun g ↦ NodeHead.plain .braceBlock g.opening.index (g.opening.index + g.size) := by
  rw [foldl_append]
  induction gs with
  | nil => rfl
  | cons g gs ih => simpa [block, Outline.head, empty] using ih

variable {i : Nat} {f : Focus} {rest : List Focus}

/-- What a draft owns, the node of the item owns. -/
theorem item_owns {d : ItemDraft} {content : BraceGroup → Forest} {o : Outline}
    (ho : o ∈ (item f d ((d.groups.map fun g ↦ block g (content g)).foldl append empty)).nodes) {j : Nat}
    (hj : d.Owns f.index j) : o.head.Owns (o.children.map Outline.head) j := by
  cases List.mem_singleton.1 ho
  obtain ⟨hlow, hhigh, houtside⟩ := hj
  rw [Outline.children, heads_blocks]
  refine ⟨hlow, Nat.lt_succ_of_le hhigh, fun c hin ↦ ?_⟩
  obtain ⟨g, hg, rfl⟩ := List.mem_map.1 hin
  exact houtside g hg

theorem item_itemized (hc : Focus.Consecutive i (f :: rest)) (hP : ∀ q ∈ f :: rest, P q)
    (hread : (f.token.isTrivia || f.token.kind.isInvalid) = false) (hplain : Braces.Plain f) (inFunction : Bool)
    {d : ItemDraft} (hd : ItemDraft.of inFunction f rest = d) (content : BraceGroup → Forest) :
    ∀ o ∈ (item f d ((d.groups.map fun g ↦ block g (content g)).foldl append empty)).nodes,
      o.head.Itemized P (o.children.map Outline.head) := by
  intro o ho
  have howns {j : Nat} (hj : d.Owns f.index j) := item_owns ho hj
  cases List.mem_singleton.1 ho
  obtain rfl := hc.head
  have hahead : ItemDraft.Ahead P f.index (rest.length + 1) 0 (f :: rest) := ⟨hc, hP, Nat.zero_add _⟩
  have hsound := ItemDraft.of_sound hahead inFunction
  have hbraced := ItemDraft.of_braced hc hplain inFunction
  rw [hd] at hsound hbraced
  have hfirst : d.Owns f.index f.index := by
    refine ⟨Nat.le_refl _, Nat.le_add_right _ _, fun g hg hholds ↦ ?_⟩
    obtain ⟨hmem, hbrace⟩ := (hbraced.records.fits g hg).opening
    have hskip := hsound.groups.at_skip g hg
    have hindex : g.opening.index = f.index := by
      have hle := hholds.1
      omega
    rw [hc.eq_head (List.mem_of_mem_take hmem) hindex, hplain.1] at hbrace
    cases hbrace
  refine ⟨⟨f, hP f (by simp), rfl, hd ▸ ItemDraft.of_leads hread inFunction rest⟩, ?_, howns hfirst, ?_⟩
  · intro c hin
    rw [Outline.children, heads_blocks] at hin
    obtain ⟨g, -, rfl⟩ := List.mem_map.1 hin
    rfl
  · exact fun j hj ↦ howns ((hd ▸ ItemDraft.of_tells hahead inFunction).name j hj)

end Forest

namespace Outline

variable {E : DelimiterError → Prop} {Q : NodeHead → List NodeHead → Prop} {i : Nat} {all region : List Focus}

/-- What is to be shown for the item that starts with a token, to have it for all items of a region. -/
def ItemsHave (all : List Focus) (E : DelimiterError → Prop) (Q : NodeHead → List NodeHead → Prop) : Prop :=
  ∀ {i : Nat} {f : Focus} {rest : List Focus}, Focus.Consecutive i (f :: rest) → Focus.Enclosed all (f :: rest) →
    (f.token.isTrivia || f.token.kind.isInvalid) = false → Braces.Plain f →
    ∀ (inFunction : Bool) {d : ItemDraft}, ItemDraft.of inFunction f rest = d → (∀ e ∈ d.errors, E e) →
    ∀ (content : BraceGroup → Forest),
      ∀ o ∈ (Forest.item f d ((d.groups.map fun g ↦ .block g (content g)).foldl .append .empty)).nodes,
        Q o.head (o.children.map head)

theorem forest_items (hQ : ItemsHave all E Q) (depth : Nat) (inFunction recovering : Bool)
    (hc : Focus.Consecutive i region) (hregion : Focus.Enclosed all region)
    (hE : ∀ e ∈ (forest depth inFunction recovering region).errors, E e) :
    ∀ o ∈ preorderAll (forest depth inFunction recovering region).nodes, o.head.kind.isItem = true →
      Q o.head (o.children.map head) := by
  fun_induction forest depth inFunction recovering region generalizing i with
  | case1 => simp [Forest.empty]
  | case2 _ _ _ f rest =>
    rename_i ih
    exact ih hc.tail hregion.tail hE
  | case3 _ _ f rest =>
    rename_i ih
    exact ih hc.tail hregion.tail fun e he ↦ hE e (List.mem_append_right _ he)
  | case4 _ _ _ f rest =>
    rename_i ih
    intro o ho hitem
    rw [Forest.append, List.nil_append, Forest.recovered, preorderAll_singleton] at ho
    rcases List.mem_cons.1 ho with rfl | ho
    · cases hitem
    · exact ih hc.tail hregion.tail (fun e he ↦ hE e (List.mem_append_right _ he)) o ho hitem
  | case5 _ inFunction _ f rest _ _ hf g content ihInside =>
    rename_i ihRest
    intro o ho hitem
    obtain ⟨hskip, hat, -⟩ := BraceGroup.of_front (g := g) hc rfl
    obtain ⟨-, hfits, -⟩ := ItemDraft.front_group_fits hc hf (g := g) rfl rfl
    have hclose := hfits.closes hc (List.take_subset _ _) hat
    rw [hskip, List.drop_zero] at hclose
    rw [Forest.append, List.forall_mem_append] at hE
    rw [Forest.append, preorderAll_append, Forest.block, preorderAll_singleton] at ho
    rcases List.mem_append.1 ho with ho | ho
    · rcases List.mem_cons.1 ho with rfl | ho
      · cases hitem
      · have hcontent := (List.forall_mem_append.1 hE.1).2
        unfold content at ho hcontent
        split at ho
        · cases ho
        · rename_i hdepth
          rw [dif_neg hdepth] at hcontent
          exact ihInside (hc.tail.take _) (hregion.tail.take hclose) hcontent o ho hitem
    · exact ihRest (hc.tail.drop _) (hregion.tail.drop _) hE.2 o ho hitem
  | case6 _ inFunction _ f rest hread hclose hopen d blocks ihInside =>
    rename_i ihRest
    intro o ho hitem
    rw [Forest.append, List.forall_mem_append, Forest.item, List.forall_mem_append] at hE
    rw [Forest.append, preorderAll_append] at ho
    rcases List.mem_append.1 ho with ho | ho
    · have hplain : Braces.Plain f := ⟨by simpa using hopen, by simpa using hclose⟩
      rw [Forest.item, preorderAll_singleton] at ho
      rcases List.mem_cons.1 ho with rfl | ho
      · exact hQ hc hregion (by simpa using hread) hplain inFunction rfl hE.1.1 _ _ (List.mem_singleton_self _)
      · obtain ⟨t, ht, ho⟩ := Forest.mem_nodes_foldl.1 ho
        have herrors := fun e he ↦ hE.1.2 e (Forest.mem_errors_foldl.2 ⟨t, ht, he⟩)
        obtain ⟨g, hg, rfl⟩ := List.mem_map.1 ht
        rw [Forest.block, preorderAll_singleton] at ho
        rcases List.mem_cons.1 ho with rfl | ho
        · cases hitem
        · have hcontent := (List.forall_mem_append.1 herrors).2
          split at ho
          · cases ho
          · rename_i hdepth
            rw [dif_neg hdepth] at hcontent
            have hsound : d.Sound (fun _ ↦ True) i (rest.length + 1) :=
              ItemDraft.of_sound ⟨hc, fun _ _ ↦ trivial, Nat.zero_add _⟩ inFunction
            have hfits := (ItemDraft.of_braced hc hplain inFunction).records.fits g hg
            have hclose := hfits.closes hc (List.take_subset _ _) (hsound.groups.at_skip g hg)
            exact ihInside g ((hc.tail.drop _).take _) ((hregion.tail.drop _).take hclose) hcontent o ho hitem
    · exact ihRest (hc.tail.drop _) (hregion.tail.drop _) hE.2 o ho hitem

end Outline

namespace Tree

/-- The tokens of a node outside of its children. -/
def Owns (t : Tree) (i : Nat) : Prop := t.head.Owns (t.children.map head) i

variable {Q : NodeHead → List NodeHead → Prop} {P : NodeHead → Prop} {low high : Nat} {ts : List Tree}

theorem head_number (next : Nat) (o : Outline) : (number next o).1.head = o.head := by
  cases o
  rfl

theorem heads_numberAll (next : Nat) (os : List Outline) : (numberAll next os).1.map head = os.map Outline.head := by
  induction os generalizing next with
  | nil => rfl
  | cons o os ih => rw [numberAll, List.map_cons, List.map_cons, head_number, ih]

theorem heads_regroupAll (next : Nat) (ts : List Tree) : (regroupAll next ts).1.map head = ts.map head := by
  induction ts generalizing next with
  | nil => rfl
  | cons t ts ih =>
    have hhead : (regroup next t).1.head = t.head := by
      cases t
      rfl
    rw [regroupAll, List.map_cons, List.map_cons, hhead, ih]

mutual

theorem number_nodes (next : Nat) (o : Outline) (h : ∀ u ∈ o.preorder, Q u.head (u.children.map Outline.head)) :
    ∀ t ∈ (number next o).1.preorder, Q t.head (t.children.map head) := by
  cases o with
  | node head children =>
    rw [Outline.preorder, List.forall_mem_cons] at h
    intro t ht
    rcases mem_preorder_iff.1 ht with rfl | ⟨c, hc, ht⟩
    · have hheads := heads_numberAll (next + 1) children
      exact hheads ▸ h.1
    · exact numberAll_nodes (next + 1) children h.2 t (List.mem_flatMap.2 ⟨c, hc, ht⟩)

theorem numberAll_nodes (next : Nat) (os : List Outline)
    (h : ∀ u ∈ Outline.preorderAll os, Q u.head (u.children.map Outline.head)) :
    ∀ t ∈ (numberAll next os).1.flatMap preorder, Q t.head (t.children.map head) := by
  cases os with
  | nil => simp [numberAll]
  | cons o os =>
    rw [Outline.preorderAll, List.forall_mem_append] at h
    rw [numberAll, List.flatMap_cons, List.forall_mem_append]
    exact ⟨number_nodes next o h.1, numberAll_nodes _ os h.2⟩

end

theorem Grouping.mem_foldl {g : Grouping} {u : Tree} (hu : u ∈ (ts.foldl step g).siblings.flatMap preorder) :
    u.kind = .preprocessorBlock ∨ u ∈ (g.siblings ++ ts).flatMap preorder := by
  induction ts generalizing g with
  | nil =>
    rw [List.append_nil]
    exact .inr hu
  | cons t ts ih =>
    rcases ih hu with h | h
    · exact .inl h
    · rw [List.append_cons, List.flatMap_append] at *
      rcases List.mem_append.1 h with h | h
      · rcases g.step_cases t with ⟨hs, -⟩ | ⟨front, members, hg, hs, -⟩
        · rw [hs] at h
          exact .inr (List.mem_append_left _ h)
        · rw [hs, List.flatMap_append, List.flatMap_singleton] at h
          rw [hg, List.append_assoc, List.flatMap_append]
          rcases List.mem_append.1 h with h | h
          · exact .inr (List.mem_append_left _ (List.mem_append_left _ h))
          · rcases mem_preorder_iff.1 h with rfl | ⟨c, hc, h⟩
            · exact .inl rfl
            · exact .inr (List.mem_append_left _ (List.mem_append_right _ (List.mem_flatMap.2 ⟨c, hc, h⟩)))
      · exact .inr (List.mem_append_right _ h)

/-- Where no directive opens or ends a conditional, nothing is grouped. -/
theorem Grouping.siblings_foldl_other {g : Grouping} (h : ∀ t ∈ ts, t.mark = .other) :
    (ts.foldl step g).siblings = g.siblings ++ ts := by
  induction ts generalizing g with
  | nil => simp
  | cons t ts ih =>
    have hstep : g.step t = g.add t := by rw [step, h t (by simp)]
    rw [List.foldl_cons, ih fun u hu ↦ h u (by simp [hu]), hstep, siblings_add, ← List.append_cons]

mutual

/-- Grouping leaves items as they are. -/
theorem regroup_items (hQ : ∀ h inner, Q h inner → ∀ c ∈ inner, c.kind = .braceBlock) (next : Nat) (t : Tree)
    (h : ∀ u ∈ t.preorder, u.kind.isItem = true → Q u.head (u.children.map head)) :
    ∀ u ∈ (regroup next t).1.preorder, u.kind.isItem = true → Q u.head (u.children.map head) := by
  cases t with
  | node id top children =>
    rw [preorder_eq_cons, List.forall_mem_cons] at h
    intro u hu hitem
    rcases mem_preorder_iff.1 hu with rfl | ⟨c, hc, hu⟩
    · have htop : Q top (children.map head) := h.1 hitem
      have hheads := heads_regroupAll (group next children).next children
      have hother : ∀ c ∈ (regroupAll (group next children).next children).1, c.mark = .other := by
        intro c hc
        have hkind : c.kind = .braceBlock := hQ _ _ htop c.head (hheads ▸ List.mem_map_of_mem hc)
        simp [mark, hkind]
      have hsame : (group next (regroupAll (group next children).next children).1).siblings =
          (regroupAll (group next children).next children).1 := Grouping.siblings_foldl_other hother
      rw [regroup, Tree.children, hsame, hheads]
      exact htop
    · rcases Grouping.mem_foldl (List.mem_flatMap.2 ⟨c, hc, hu⟩) with hkind | hu
      · rw [hkind] at hitem
        cases hitem
      · exact regroupAll_items hQ _ children h.2 u hu hitem

theorem regroupAll_items (hQ : ∀ h inner, Q h inner → ∀ c ∈ inner, c.kind = .braceBlock) (next : Nat)
    (ts : List Tree) (h : ∀ u ∈ ts.flatMap preorder, u.kind.isItem = true → Q u.head (u.children.map head)) :
    ∀ u ∈ (regroupAll next ts).1.flatMap preorder, u.kind.isItem = true → Q u.head (u.children.map head) := by
  cases ts with
  | nil => simp [regroupAll]
  | cons t ts =>
    rw [List.flatMap_cons, List.forall_mem_append] at h
    rw [regroupAll, List.flatMap_cons, List.forall_mem_append]
    exact ⟨regroup_items hQ next t h.1, regroupAll_items hQ _ ts h.2⟩

end

/-- What holds of every item that is read with errors of which `E` holds, holds of those of a file. -/
theorem items_ofFoci {E : DelimiterError → Prop} (tokens : List Token)
    (hQ : ∀ h inner, Q h inner → ∀ c ∈ inner, c.kind = .braceBlock)
    (hitems : Outline.ItemsHave (Focus.all tokens) E Q)
    (hE : ∀ e ∈ (Outline.forest 0 false false (Focus.all tokens)).errors, E e) :
    ∀ t ∈ (ofOutline (Outline.ofFoci (Focus.all tokens)).1).preorder, t.kind.isItem = true →
      Q t.head (t.children.map head) := by
  refine regroup_items hQ _ _ (number_nodes (Q := fun h inner ↦ h.kind.isItem = true → Q h inner) _ _ ?_)
  intro o ho hitem
  rcases Outline.mem_preorder_ofFoci.1 ho with rfl | ho
  · cases hitem
  · exact Outline.forest_items hitems 0 false false (Focus.all_consecutive tokens) (.self _) hE o ho hitem

/-- Every item owns its first token and its name. -/
theorem itemized_ofFoci (tokens : List Token) :
    ∀ t ∈ (ofOutline (Outline.ofFoci (Focus.all tokens)).1).preorder, t.kind.isItem = true →
      t.head.Itemized (· ∈ Focus.all tokens) (t.children.map head) :=
  items_ofFoci (E := fun _ ↦ True) tokens (fun _ _ h ↦ h.blocks)
    (fun hc hregion hread hplain inFunction _ hd _ ↦
      Forest.item_itemized hc hregion.mem hread hplain inFunction hd)
    fun _ _ ↦ trivial

namespace Within

theorem range_of_mem (h : Within P low high ts) {t u : Tree} (ht : t ∈ ts) (hu : u ∈ t.preorder) :
    t.start ≤ u.start ∧ u.stop ≤ t.stop := by
  rcases mem_preorder_iff.1 hu with rfl | ⟨c, hc, hu⟩
  · exact ⟨Nat.le_refl _, Nat.le_refl _⟩
  · obtain ⟨hstart, -, hstop, -⟩ := (h.of_mem ht (self_mem_preorder t)).2.2.2.2.of_mem hc hu
    exact ⟨hstart, hstop⟩

/-- What a node below owns is in one of the children. -/
theorem not_owns {t u : Tree} (h : Within P t.start t.stop t.children) (hu : u ∈ t.children.flatMap preorder) {i : Nat}
    (ht : t.Owns i) : ¬u.Owns i := by
  intro howns
  obtain ⟨c, hc, hu⟩ := List.mem_flatMap.1 hu
  obtain ⟨hstart, hstop⟩ := h.range_of_mem hc hu
  exact ht.2.2 c.head (List.mem_map_of_mem hc) ⟨Nat.le_trans hstart howns.1, Nat.lt_of_lt_of_le howns.2.1 hstop⟩

/-- No token is owned by two of the nodes under nested siblings. -/
theorem owns_pairwise (h : Within P low high ts) :
    (ts.flatMap preorder).Pairwise fun t u ↦ ∀ i, t.Owns i → ¬u.Owns i := by
  induction h with
  | nil => exact .nil
  | cons hlow hne hP hinner hrest ihInner ihRest =>
    rename_i low high id head children rest
    have hlater : ∀ u ∈ rest.flatMap preorder, ∀ i, u.Owns i → head.stop ≤ i := by
      intro u hu i howns
      obtain ⟨c, hc, hu⟩ := List.mem_flatMap.1 hu
      exact Nat.le_trans (hrest.of_mem hc hu).1 howns.1
    rw [List.flatMap_cons, preorder_eq_cons, List.cons_append]
    refine .cons (fun u hu i ht ↦ ?_) (List.pairwise_append.2 ⟨ihInner, ihRest, fun t ht u hu i howns hu' ↦ ?_⟩)
    · rcases List.mem_append.1 hu with hu | hu
      · exact not_owns hinner hu ht
      · exact fun howns ↦ Nat.not_lt.2 (hlater u hu i howns) ht.2.1
    · obtain ⟨c, hc, ht⟩ := List.mem_flatMap.1 ht
      obtain ⟨-, -, hstop, -⟩ := hinner.of_mem hc ht
      exact Nat.not_lt.2 (hlater u hu i hu') (Nat.lt_of_lt_of_le howns.2.1 hstop)

end Within

theorem owns_ofFoci (tokens : List Token) :
    (ofOutline (Outline.ofFoci (Focus.all tokens)).1).preorder.Pairwise fun t u ↦ ∀ i, t.Owns i → ¬u.Owns i := by
  have hroot : Within (NodeHead.Named (· ∈ Focus.all tokens)) _ _
      (ofOutline (Outline.ofFoci (Focus.all tokens)).1).children := within_node (self_mem_preorder _)
  rw [preorder_eq_cons]
  exact .cons (fun u hu i ht ↦ hroot.not_owns hu ht) hroot.owns_pairwise

end Tree

end CodeStyle
