import CodeStyle.Outline.Reader
import CodeStyle.Proofs.Drafts

/-!
The outline that is read from tokens is nested: the nodes of a region lie in it one after another,
none is empty, and each lies around its children.
-/

namespace CodeStyle

/-- A node is named by an identifier of which `Q` holds, if it is named. -/
def NodeHead.Named (Q : Focus → Prop) (h : NodeHead) : Prop :=
  ∀ i ∈ h.name, ∃ f, Q f ∧ f.index = i ∧ f.token.isIdentifier = true

/-- Siblings that lie one after another from the `low`-th token up to the `high`-th, none of them empty,
and each around its own children. -/
inductive Outline.Within (P : NodeHead → Prop) : Nat → Nat → List Outline → Prop where
  | nil {low high : Nat} (h : low ≤ high) : Within P low high []
  | cons {low high : Nat} {head : NodeHead} {children rest : List Outline} (hlow : low ≤ head.start)
      (hne : head.start < head.stop) (hP : P head) (hinner : Within P head.start head.stop children)
      (hrest : Within P head.stop high rest) : Within P low high (.node head children :: rest)

namespace Outline.Within

variable {P : NodeHead → Prop} {low mid high : Nat} {os : List Outline}

theorem append {rest : List Outline} (h : Within P low mid os) (hr : Within P mid high rest) :
    Within P low high (os ++ rest) := by
  induction h with
  | nil hle =>
    cases hr with
    | nil h => exact .nil (Nat.le_trans hle h)
    | cons hlow hne hP hinner hrest => exact .cons (Nat.le_trans hle hlow) hne hP hinner hrest
  | cons hlow hne hP hinner _ _ ih => exact .cons hlow hne hP hinner (ih hr)

theorem mono {low' high' : Nat} (h : Within P low high os) (hl : low' ≤ low) (hh : high ≤ high') :
    Within P low' high' os := by
  have hb : Within P low high' (os ++ []) := h.append (.nil hh)
  rw [List.append_nil] at hb
  exact append (.nil hl) hb

end Outline.Within

namespace Forest

/-- Nodes that are nested in a range, with names and errors from tokens of which `Q` holds. -/
structure Sound (Q : Focus → Prop) (low high : Nat) (t : Forest) : Prop where
  nodes : Outline.Within (NodeHead.Named Q) low high t.nodes
  errors : ∀ e ∈ t.errors, ∃ f, Q f ∧ e.span = f.token.span

variable {Q : Focus → Prop} {low mid high start : Nat} {f : Focus} {g : BraceGroup} {t : Forest}

theorem empty_sound (h : low ≤ high) : empty.Sound Q low high := ⟨.nil h, by simp [empty]⟩

theorem Sound.append {u : Forest} (ht : t.Sound Q low mid) (hu : u.Sound Q mid high) :
    (t.append u).Sound Q low high := by
  refine ⟨ht.nodes.append hu.nodes, fun e he ↦ ?_⟩
  rcases List.mem_append.1 he with he | he
  · exact ht.errors e he
  · exact hu.errors e he

theorem Sound.mono {low' high' : Nat} (h : t.Sound Q low high) (hl : low' ≤ low) (hh : high ≤ high') :
    t.Sound Q low' high' :=
  ⟨h.nodes.mono hl hh, h.errors⟩

theorem stray_sound (hf : Q f) (h : low ≤ high) (i : Imbalance) :
    Sound Q low high ⟨[], [⟨i, f.token.span⟩]⟩ := by
  refine ⟨.nil h, fun e he ↦ ?_⟩
  cases List.mem_singleton.1 he
  exact ⟨f, hf, rfl⟩

theorem block_sound (hg : Q g.opening)
    (h : t.Sound Q (g.opening.index + 1) (g.opening.index + 1 + g.inside)) :
    (block g t).Sound Q g.opening.index (g.opening.index + g.size) := by
  have hpos := g.inside_lt_size
  refine ⟨.cons (Nat.le_refl _) ?_ (by simp [NodeHead.Named, NodeHead.plain]) ?_ (.nil (Nat.le_refl _)), ?_⟩
  · simp only [NodeHead.plain]
    omega
  · exact h.nodes.mono (by simp [NodeHead.plain]) (by simp only [NodeHead.plain]; omega)
  · intro e he
    rcases List.mem_append.1 he with he | he
    · unfold BraceGroup.errors at he
      split at he
      · cases he
      · cases List.mem_singleton.1 he
        exact ⟨g.opening, hg, rfl⟩
    · exact h.errors e he

/-- The blocks of groups that fit lie where the groups do. -/
theorem blocks_sound {gs : List BraceGroup} {content : BraceGroup → Forest}
    (hfit : BraceGroup.Fit start low high gs) (hQ : ∀ g ∈ gs, Q g.opening)
    (hcontent : ∀ g, g.opening.index = start + g.skip →
      (content g).Sound Q (g.opening.index + 1) (g.opening.index + 1 + g.inside))
    (ht : t.Sound Q start (start + low)) :
    ((gs.map fun g ↦ block g (content g)).foldl append t).Sound Q start (start + high) := by
  induction hfit generalizing t with
  | nil h => exact ht.mono (Nat.le_refl _) (by omega)
  | cons hlow hat hrest ih =>
    rename_i low high g rest
    have hg := block_sound (hQ g (by simp)) (hcontent g hat)
    rw [hat, Nat.add_assoc] at hg
    refine ih (fun g hm ↦ hQ g (by simp [hm])) ?_
    exact (ht.mono (Nat.le_refl _) (by omega)).append hg

theorem item_sound {d : ItemDraft} {total : Nat} (hd : d.Sound Q f.index total)
    (ht : t.Sound Q f.index (f.index + d.more + 1)) :
    (item f d t).Sound Q f.index (f.index + d.more + 1) := by
  refine ⟨.cons (Nat.le_refl _) (by dsimp only; omega) hd.name ht.nodes (.nil (Nat.le_refl _)), ?_⟩
  intro e he
  rcases List.mem_append.1 he with he | he
  · exact hd.errors e he
  · exact ht.errors e he

theorem recovered_sound {rest : List Focus}
    (ht : t.Sound Q (f.index + 1) (f.index + 1 + rest.length)) :
    (recovered f rest t).Sound Q f.index (f.index + 1 + rest.length) := by
  have hstop : f.index + rest.length + 1 = f.index + 1 + rest.length := by omega
  refine ⟨.cons (Nat.le_refl _) ?_ (by simp [NodeHead.Named, NodeHead.plain]) ?_ (.nil ?_), ht.errors⟩
  · simp only [NodeHead.plain]
    omega
  · exact ht.nodes.mono (Nat.le_succ _) (Nat.le_of_eq hstop.symm)
  · exact Nat.le_of_eq hstop

end Forest

namespace Outline

variable {Q : Focus → Prop} {i n : Nat} {region : List Focus}

/-- The inside of a group holds no more nodes than its tokens, also where it is too deep to be read. -/
theorem inside_sound {deep : Prop} [Decidable deep] {t : Forest}
    (h : t.Sound Q i (i + (region.take n).length)) :
    (if deep then Forest.empty else t).Sound Q i (i + n) := by
  split
  · exact Forest.empty_sound (Nat.le_add_right _ _)
  · exact h.mono (Nat.le_refl _) (Nat.add_le_add_left (List.length_take_le n region) i)

/-- The nodes of a region lie in it, nested, and what they record comes from its tokens. -/
theorem forest_sound (depth : Nat) (inFunction recovering : Bool)
    (hc : Focus.Consecutive i region) (hQ : ∀ f ∈ region, Q f) :
    (forest depth inFunction recovering region).Sound Q i (i + region.length) := by
  fun_induction forest depth inFunction recovering region generalizing i with
  | case1 => exact Forest.empty_sound (Nat.le_refl _)
  | case2 _ _ _ f rest =>
    rename_i ih
    have h := ih hc.tail fun q hq ↦ hQ q (by simp [hq])
    exact h.mono (Nat.le_succ _) (by simp only [List.length_cons]; omega)
  | case3 _ _ f rest =>
    rename_i ih
    have h := ih hc.tail fun q hq ↦ hQ q (by simp [hq])
    refine (Forest.stray_sound (hQ f (by simp)) (Nat.le_succ i) _).append (h.mono (Nat.le_refl _) ?_)
    simp only [List.length_cons]
    omega
  | case4 _ _ _ f rest =>
    rename_i ih
    obtain rfl := hc.head
    have h := Forest.recovered_sound (ih hc.tail fun q hq ↦ hQ q (by simp [hq]))
    refine (Forest.stray_sound (hQ f (by simp)) (Nat.le_refl _) _).append (h.mono (Nat.le_refl _) ?_)
    simp only [List.length_cons]
    omega
  | case5 _ inFunction _ f rest _ _ _ g content ihInside =>
    rename_i ihRest
    obtain rfl := hc.head
    have hopening : g.opening = f := BraceGroup.of_opening ..
    have hle : g.size ≤ rest.length + 1 := BraceGroup.of_size_le ..
    have hpos := g.inside_lt_size
    have hblock := Forest.block_sound (g := g) (t := content) (by simpa [hopening] using hQ f (by simp))
      (by
        rw [hopening]
        exact inside_sound (ihInside (hc.tail.take _) fun q hq ↦ hQ q (by simp [List.mem_of_mem_take hq])))
    rw [hopening] at hblock
    have hrest := ihRest (hc.tail.drop (g.size - 1)) fun q hq ↦ hQ q (by simp [List.mem_of_mem_drop hq])
    refine hblock.append (hrest.mono (by omega) ?_)
    simp only [List.length_drop, List.length_cons]
    omega
  | case6 _ inFunction _ f rest _ _ _ d blocks ihInside =>
    rename_i ihRest
    obtain rfl := hc.head
    have hd : d.Sound Q f.index (rest.length + 1) :=
      ItemDraft.of_sound ⟨hc, hQ, Nat.zero_add _⟩ inFunction
    have hmore := hd.more_lt
    have hblocks : (blocks.foldl Forest.append Forest.empty).Sound Q f.index (f.index + d.more + 1) := by
      refine Forest.blocks_sound hd.groups hd.openings (fun g hat ↦ ?_)
        (Forest.empty_sound (Nat.le_refl f.index))
      rw [hat, Nat.add_right_comm]
      exact inside_sound (ihInside g ((hc.tail.drop g.skip).take _) fun q hq ↦
        hQ q (by simp [List.mem_of_mem_drop (List.mem_of_mem_take hq)]))
    have hrest := ihRest (hc.tail.drop d.more) fun q hq ↦ hQ q (by simp [List.mem_of_mem_drop hq])
    refine (Forest.item_sound hd hblocks).append (hrest.mono (by omega) ?_)
    simp only [List.length_drop, List.length_cons]
    omega

end Outline

end CodeStyle
