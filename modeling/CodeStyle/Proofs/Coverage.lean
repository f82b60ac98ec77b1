import CodeStyle.Proofs.DelimiterErrors

/-!
The tree of a file drops no code. What a region holds is told along with its reading: the items of a
region follow each other without a gap, so that only blanks and malformed pieces stand between them.
Numbering changes nothing of this, and a conditional spans all that it takes in.
-/

namespace CodeStyle

/-- Blanks, line breaks and malformed pieces may stand between the nodes of a tree, other tokens not. -/
def Token.isKept (t : Token) : Bool := !(t.isTrivia || t.kind.isInvalid)

theorem mem_strays_of_drop {region : List Focus} {n : Nat} {f : Focus}
    (hsettled : (Braces.of (region.take n)).opens = [] ∨ region.length ≤ n)
    (hf : f ∈ (Braces.of (region.drop n)).strays) : f ∈ (Braces.of region).strays := by
  rcases hsettled with hopens | hlen
  · have hsplit : Braces.of (region.take n ++ region.drop n) =
        (Braces.of (region.take n)).extend (Braces.of (region.drop n)) := Braces.of_append (.inr hopens)
    rw [List.take_append_drop] at hsplit
    rw [hsplit]
    exact List.mem_append_right _ hf
  · rw [List.drop_eq_nil_of_le hlen] at hf
    cases hf

namespace Outline

/-- The `i`-th token belongs to one of these nodes. -/
def Holds (os : List Outline) (i : Nat) : Prop := ∃ o ∈ os, o.head.start ≤ i ∧ i < o.head.stop

theorem Holds.append_left {os us : List Outline} {i : Nat} (h : Holds os i) : Holds (os ++ us) i := by
  obtain ⟨o, ho, hrange⟩ := h
  exact ⟨o, List.mem_append_left _ ho, hrange⟩

theorem Holds.append_right {os us : List Outline} {i : Nat} (h : Holds us i) : Holds (os ++ us) i := by
  obtain ⟨o, ho, hrange⟩ := h
  exact ⟨o, List.mem_append_right _ ho, hrange⟩

section

variable {i depth n : Nat} {region : List Focus} {inFunction recovering : Bool}

/-- Behind a node of the first tokens of a region, all depends on what is read of the others. -/
theorem holds_append {t : Forest} {o : Outline} (hc : Focus.Consecutive i region) (ht : t.nodes = [o])
    (hstart : o.head.start = i) (hstop : o.head.stop = i + n)
    (hsettled : (Braces.of (region.take n)).opens = [] ∨ region.length ≤ n)
    (hrest : ∀ f ∈ region.drop n, f.token.isKept = true →
      (recovering = true ∧ f ∈ (Braces.of (region.drop n)).strays) ∨
        Holds (forest depth inFunction recovering (region.drop n)).nodes f.index) :
    ∀ f ∈ region, f.token.isKept = true → (recovering = true ∧ f ∈ (Braces.of region).strays) ∨
      Holds (t.append (forest depth inFunction recovering (region.drop n))).nodes f.index := by
  intro f hf hkept
  rw [← List.take_append_drop n region] at hf
  rcases List.mem_append.1 hf with hf | hf
  · right
    obtain ⟨hlow, hhigh⟩ := (hc.take n).index_mem hf
    have hlen : (region.take n).length ≤ n := List.length_take_le ..
    apply Holds.append_left
    refine ⟨o, by simp [ht], ?_, ?_⟩ <;> omega
  · rcases hrest f hf hkept with ⟨hrec, hstray⟩ | hheld
    · exact .inl ⟨hrec, mem_strays_of_drop hsettled hstray⟩
    · exact .inr hheld.append_right

/-- Every token of a region belongs to a node of it, unless it is a brace that nothing opened and that
recovery passes over. -/
theorem forest_holds (depth : Nat) (inFunction recovering : Bool) (hc : Focus.Consecutive i region) :
    ∀ f ∈ region, f.token.isKept = true → (recovering = true ∧ f ∈ (Braces.of region).strays) ∨
      Holds (forest depth inFunction recovering region).nodes f.index := by
  fun_induction forest depth inFunction recovering region generalizing i with
  | case1 => simp
  | case2 _ _ _ f rest hf =>
    rename_i ih
    rw [Braces.of_cons_plain (Braces.plain_of_not_isCode (Token.Kind.isCode_of_skipped hf))]
    intro q hq hkept
    rcases List.mem_cons.1 hq with rfl | hq
    · simp [Token.isKept, hf] at hkept
    · exact ih hc.tail q hq hkept
  | case3 _ _ f rest _ hf =>
    rename_i ih
    rw [Braces.of_cons_stray hf]
    intro q hq hkept
    rcases List.mem_cons.1 hq with rfl | hq
    · exact .inl ⟨rfl, List.mem_cons_self ..⟩
    · rcases ih hc.tail q hq hkept with ⟨hrec, hstray⟩ | hheld
      · exact .inl ⟨hrec, List.mem_cons_of_mem _ hstray⟩
      · exact .inr hheld
  | case4 _ _ _ f rest =>
    intro q hq _
    right
    obtain ⟨hlow, hhigh⟩ := hc.index_mem hq
    rw [List.length_cons] at hhigh
    have hfirst := hc.head
    refine ⟨_, List.mem_cons_self .., ?_, ?_⟩ <;> simp only [Outline.head, NodeHead.plain] <;> omega
  | case5 _ inFunction _ f rest _ _ hf g content =>
    rename_i ihRest
    have hsettled := ItemDraft.front_group_settled hc hf (g := g) rfl
    rw [← g.drop_size f] at ihRest ⊢
    have hopening : g.opening = f := BraceGroup.of_opening ..
    refine holds_append hc rfl ?_ ?_ hsettled (ihRest (hc.drop g.size))
    · simp [Outline.head, NodeHead.plain, hopening, hc.head]
    · simp [Outline.head, NodeHead.plain, hopening, hc.head]
  | case6 _ inFunction _ f rest _ hclose hopen d blocks =>
    rename_i ihRest
    have hplain : Braces.Plain f := ⟨by simpa using hopen, by simpa using hclose⟩
    have hbraced : d.Braced (f :: rest) := ItemDraft.of_braced hc hplain inFunction
    refine holds_append (n := d.more + 1) hc rfl ?_ ?_ hbraced.settled (ihRest (hc.tail.drop d.more))
    · simp [Outline.head, hc.head]
    · simp [Outline.head, hc.head, Nat.add_assoc]

end

end Outline

/-- A brace block that does not stand for what follows a stray brace. -/
def NodeHead.isBlock (h : NodeHead) : Bool := h.kind == .braceBlock && !h.recovered

/-- A block `depth` blocks deep holds all tokens in its range but its own braces. One that stands for what
follows a stray brace holds all but the strays. -/
structure NodeHead.Filled (all : List Focus) (b : Braces) (depth : Nat) (h : NodeHead) (held : Nat → Prop) :
    Prop where
  block : h.isBlock = true → depth < maxDepth → ∀ f ∈ all, f.token.isKept = true → h.start ≤ f.index →
    f.index < h.stop → f.index = h.start ∨ (∃ o, (o, f) ∈ b.pairs ∧ o.index = h.start) ∨ held f.index
  recovered : h.kind = .braceBlock → h.recovered = true → ∀ f ∈ all, f.token.isKept = true →
    h.start ≤ f.index → f.index < h.stop → f ∈ b.strays ∨ held f.index

namespace NodeHead.Filled

variable {all : List Focus} {b c : Braces} {depth : Nat} {h : NodeHead} {held held' : Nat → Prop}

theorem of_kind_ne (hne : h.kind ≠ .braceBlock) : h.Filled all b depth held :=
  ⟨fun hb ↦ absurd hb (by simp [isBlock, hne]), fun hb ↦ absurd hb hne⟩

theorem mono (hf : h.Filled all b depth held) (hpairs : ∀ q ∈ b.pairs, q ∈ c.pairs)
    (hstrays : ∀ f ∈ b.strays, f ∈ c.strays) (hheld : ∀ i, held i → held' i) : h.Filled all c depth held' := by
  constructor
  · intro hb hdepth f hmem hkept hlow hhigh
    rcases hf.block hb hdepth f hmem hkept hlow hhigh with hi | ⟨o, ho, hi⟩ | hi
    · exact .inl hi
    · exact .inr (.inl ⟨o, hpairs _ ho, hi⟩)
    · exact .inr (.inr (hheld _ hi))
  · intro hb hrec f hmem hkept hlow hhigh
    exact (hf.recovered hb hrec f hmem hkept hlow hhigh).imp (hstrays f) (hheld _)

end NodeHead.Filled

namespace Focus

variable {all region : List Focus} {i : Nat} {f q : Focus}

theorem Consecutive.eq_of_index (h : Consecutive 0 all) (hf : f ∈ all) (hq : q ∈ all) (he : f.index = q.index) :
    f = q := by
  obtain ⟨j, hj⟩ := List.mem_iff_getElem?.1 hf
  obtain ⟨k, hk⟩ := List.mem_iff_getElem?.1 hq
  have hjk : j = k := by
    have hfj := h j f hj
    have hqk := h k q hk
    omega
  subst hjk
  exact Option.some.inj (hj.symm.trans hk)

theorem Placed.mem_all (h : Placed all i region) (hf : f ∈ region) : f ∈ all := by
  obtain ⟨k, hk⟩ := List.mem_iff_getElem?.1 hf
  exact List.mem_of_getElem? (h k f hk)

theorem Placed.mem (h : Placed all i region) (hall : Consecutive 0 all) (hf : f ∈ all) (hlow : i ≤ f.index)
    (hhigh : f.index < i + region.length) : f ∈ region := by
  have hlt : f.index - i < region.length := by omega
  have hget := List.getElem?_eq_getElem hlt
  have hindex := h.consecutive hall _ _ hget
  have he : f = region[f.index - i] :=
    hall.eq_of_index hf (h.mem_all (List.getElem_mem hlt)) (by omega)
  rw [he]
  exact List.getElem_mem hlt

end Focus

namespace Outline

/-- Every block among nodes `depth` blocks deep, and below them, is filled. -/
inductive Full (all : List Focus) (b : Braces) : Nat → List Outline → Prop where
  | nil {depth : Nat} : Full all b depth []
  | cons {depth : Nat} {head : NodeHead} {children rest : List Outline}
      (hhead : head.Filled all b depth (Holds children))
      (hinner : Full all b (depth + head.isBlock.toNat) children) (hrest : Full all b depth rest) :
      Full all b depth (.node head children :: rest)

namespace Full

variable {all : List Focus} {b c : Braces} {depth : Nat} {os us : List Outline}

theorem append (ho : Full all b depth os) (hu : Full all b depth us) : Full all b depth (os ++ us) := by
  induction ho with
  | nil => exact hu
  | cons hhead hinner _ _ ih => exact .cons hhead hinner (ih hu)

theorem mono (h : Full all b depth os) (hpairs : ∀ q ∈ b.pairs, q ∈ c.pairs)
    (hstrays : ∀ f ∈ b.strays, f ∈ c.strays) : Full all c depth os := by
  induction h with
  | nil => exact .nil
  | cons hhead _ _ ihInner ihRest => exact .cons (hhead.mono hpairs hstrays fun _ hi ↦ hi) ihInner ihRest

theorem flatMap {α : Type} {xs : List α} {nodes : α → List Outline} (h : ∀ x ∈ xs, Full all b depth (nodes x)) :
    Full all b depth (xs.flatMap nodes) := by
  induction xs with
  | nil => exact .nil
  | cons x xs ih =>
    rw [List.flatMap_cons]
    apply append
    · exact h x (by simp)
    · exact ih fun y hy ↦ h y (by simp [hy])

end Full

section

variable {all rest : List Focus} {b : Braces} {i depth : Nat} {g : BraceGroup} {inFunction : Bool}

theorem block_full (hall : Focus.Consecutive 0 all) (hplaced : Focus.Placed all (i + 1) rest)
    (hb : ∀ o f, (o, f) ∈ b.pairs → f ∈ all) (hfits : g.Fits rest b) (hat : g.opening.index = i + g.skip)
    (hinside : g.skip + g.inside ≤ rest.length)
    (hread : Full all (Braces.of (g.content rest)) (depth + 1)
      (forest (depth + 1) inFunction false (g.content rest)).nodes) :
    Full all b depth (Forest.block g (inside depth inFunction (g.content rest))).nodes := by
  have hplace : Focus.Placed all (g.opening.index + 1) (g.content rest) := by
    have h := (hplaced.drop g.skip).take g.inside
    rwa [show i + 1 + g.skip = g.opening.index + 1 by omega] at h
  have hlen : (g.content rest).length = g.inside := by
    rw [BraceGroup.content, List.length_take, List.length_drop]
    omega
  refine .cons ⟨fun _ hdepth f hf hkept hlow hhigh ↦ ?_, fun _ hrec ↦ by cases hrec⟩ ?_ .nil
  · simp only [NodeHead.plain] at hlow hhigh ⊢
    by_cases hstart : f.index = g.opening.index
    · exact .inl hstart
    right
    by_cases hcontent : f.index < g.opening.index + 1 + g.inside
    · right
      rw [inside, if_neg (by omega)]
      have hmem := hplace.mem hall hf (by omega) (by omega)
      exact (forest_holds _ _ _ (hplace.consecutive hall) f hmem hkept).resolve_left fun h ↦ by cases h.1
    · left
      cases hcase : g.closed with
      | false =>
        rw [BraceGroup.size, hcase, if_neg (by decide)] at hhigh
        omega
      | true =>
        obtain ⟨-, close, hpair, hindex⟩ := hfits.closed hcase
        rw [BraceGroup.size, if_pos hcase] at hhigh hindex
        obtain rfl := hall.eq_of_index hf (hb _ _ hpair) (by omega)
        exact ⟨_, hpair, rfl⟩
  · unfold inside
    split
    · exact .nil
    · refine hread.mono hfits.pairs fun f hf ↦ ?_
      rw [hfits.strays] at hf
      cases hf

end

/-- Every block that is read is filled. -/
theorem forest_full {all region : List Focus} {i : Nat} (depth : Nat) (inFunction recovering : Bool)
    (hall : Focus.Consecutive 0 all) (hplaced : Focus.Placed all i region) :
    Full all (Braces.of region) depth (forest depth inFunction recovering region).nodes := by
  have paired {region : List Focus} {i n : Nat} (hplaced : Focus.Placed all i region) :
      ∀ o f, (o, f) ∈ (Braces.of (region.take n)).pairs → f ∈ all := by
    intro o f hpair
    have hmem := ((Braces.of_from _).pairs o f hpair).2.1
    exact hplaced.mem_all (List.mem_of_mem_take hmem)
  have unstrayed {b c : Braces} (h : b.strays = []) : ∀ f ∈ b.strays, f ∈ c.strays := by simp [h]
  fun_induction forest depth inFunction recovering region generalizing i with
  | case1 => exact .nil
  | case2 _ _ _ f rest hf =>
    rename_i ih
    rw [Braces.of_cons_plain (Braces.plain_of_not_isCode (Token.Kind.isCode_of_skipped hf))]
    exact ih hplaced.tail
  | case3 _ _ f rest _ hf =>
    rename_i ih
    rw [Braces.of_cons_stray hf]
    exact (ih hplaced.tail).mono (fun q hq ↦ hq) fun q hq ↦ List.mem_cons_of_mem _ hq
  | case4 depth inFunction _ f rest _ hf =>
    rename_i ih
    rw [Braces.of_cons_stray hf]
    have hinner := (ih hplaced.tail).mono (c := (⟨[], [f], []⟩ : Braces).extend (Braces.of rest))
      (fun q hq ↦ hq) fun q hq ↦ List.mem_cons_of_mem _ hq
    have hfirst := (hplaced.consecutive hall).head
    refine .cons ⟨fun hb ↦ by simp [NodeHead.isBlock] at hb, fun _ _ q hq hkept hlow hhigh ↦ ?_⟩ hinner .nil
    simp only [NodeHead.plain] at hlow hhigh
    have hmem := hplaced.mem hall hq (by omega) (by rw [List.length_cons]; omega)
    rcases List.mem_cons.1 hmem with rfl | hmem
    · exact .inl (List.mem_cons_self ..)
    · have htail := hplaced.tail.consecutive hall
      rcases forest_holds depth inFunction true htail q hmem hkept with ⟨-, hstray⟩ | hheld
      · exact .inl (List.mem_cons_of_mem _ hstray)
      · exact .inr hheld
  | case5 depth inFunction recovering f rest _ _ hf g content ihInside =>
    rename_i ihRest
    have hc := hplaced.consecutive hall
    obtain ⟨hskip, hat, hinside⟩ := BraceGroup.of_front (g := g) hc rfl
    obtain ⟨hstrays, hfits, -⟩ := ItemDraft.front_group_fits hc hf (g := g) rfl rfl
    have hsettled := ItemDraft.front_group_settled hc hf (g := g) rfl
    have hcontent : rest.take g.inside = g.content rest := by rw [BraceGroup.content, hskip, List.drop_zero]
    have ht : content = inside depth inFunction (g.content rest) := by
      rw [← hcontent]
      rfl
    rw [hcontent] at ihInside
    rw [ht, ← g.drop_size f]
    rw [← g.drop_size f] at ihRest
    have hread := ihInside ((hplaced.tail.drop g.skip).take g.inside)
    apply Full.append
    · have hblock := block_full hall hplaced.tail (paired hplaced) hfits hat hinside hread
      exact hblock.mono (fun q hq ↦ mem_pairs_of_take hq) (unstrayed hstrays)
    · exact (ihRest (hplaced.drop g.size)).mono (fun q hq ↦ mem_pairs_of_drop hsettled hq)
        fun q hq ↦ mem_strays_of_drop hsettled hq
  | case6 depth inFunction recovering f rest _ hclose hopen d blocks ihInside =>
    rename_i ihRest
    have hc := hplaced.consecutive hall
    have hplain : Braces.Plain f := ⟨by simpa using hopen, by simpa using hclose⟩
    have hbraced : d.Braced (f :: rest) := ItemDraft.of_braced hc hplain inFunction
    have hsound : d.Sound (fun _ ↦ True) i (rest.length + 1) :=
      ItemDraft.of_sound ⟨hc, fun _ _ ↦ trivial, Nat.zero_add _⟩ inFunction
    have hkind : d.kind ≠ .braceBlock := ItemDraft.of_kind_ne _ _ _
    apply Full.append
    · refine .cons (.of_kind_ne hkind) ?_ .nil
      rw [Forest.foldl_append, NodeHead.isBlock]
      simp only [beq_eq_false_iff_ne.2 hkind, Bool.false_and, Bool.toNat_false, Nat.add_zero]
      refine Full.flatMap fun t ht ↦ ?_
      obtain ⟨g, hg, rfl⟩ := List.mem_map.1 ht
      have hhigh := hsound.groups.le_high g hg
      have hmore := hsound.more_lt
      have hpos := g.inside_lt_size
      have hread := ihInside g ((hplaced.tail.drop g.skip).take g.inside)
      have hblock := block_full hall hplaced.tail (paired hplaced) (hbraced.records.fits g hg)
        (hsound.groups.at_skip g hg) (by omega) hread
      exact hblock.mono (fun q hq ↦ mem_pairs_of_take hq) (unstrayed hbraced.records.strays)
    · exact (ihRest (hplaced.tail.drop d.more)).mono (fun q hq ↦ mem_pairs_of_drop hbraced.settled hq)
        fun q hq ↦ mem_strays_of_drop hbraced.settled hq

end Outline

namespace Tree

def isBlock (t : Tree) : Bool := t.head.isBlock

/-- Whether the `i`-th token is one of a node. -/
def covers (t : Tree) (i : Nat) : Bool := t.start ≤ i && i < t.stop

def Holds (ts : List Tree) (i : Nat) : Prop := ∃ t ∈ ts, t.covers i = true

theorem covers_iff {t : Tree} {i : Nat} : t.covers i = true ↔ t.start ≤ i ∧ i < t.stop := by
  simp [covers]

theorem holds_append {ts us : List Tree} {i : Nat} : Holds (ts ++ us) i ↔ Holds ts i ∨ Holds us i := by
  simp only [Holds, List.mem_append, or_and_right, exists_or]

/-- Of nested siblings only one has a token. -/
theorem Within.count_covers {P : NodeHead → Prop} {low high i : Nat} {ts : List Tree}
    (h : Within P low high ts) (hi : Holds ts i) : ts.countP (·.covers i) = 1 := by
  induction h with
  | nil =>
    obtain ⟨t, ht, -⟩ := hi
    cases ht
  | cons hlow hne hP hinner hrest ihInner ih =>
    rename_i low high id head children rest
    rw [List.countP_cons]
    by_cases hhead : (node id head children).covers i = true
    · have hzero : rest.countP (·.covers i) = 0 := by
        rw [List.countP_eq_zero]
        intro t ht hcovers
        have hbound := (hrest.bounds t ht).1
        have hhead' : head.start ≤ i ∧ i < head.stop := covers_iff.1 hhead
        have hcovers' := covers_iff.1 hcovers
        omega
      rw [hzero, if_pos hhead]
    · rw [if_neg hhead]
      apply ih
      obtain ⟨t, ht, hcovers⟩ := hi
      rcases List.mem_cons.1 ht with rfl | ht
      · exact absurd hcovers hhead
      · exact ⟨t, ht, hcovers⟩

/-- A conditional has all tokens of its members. -/
theorem Within.conditional_covers {P : NodeHead → Prop} {low high i : Nat} {ts : List Tree} {t : Tree}
    (h : Within P low high (ts ++ [t])) (id : Nat) (hi : Holds (ts ++ [t]) i) :
    (Tree.conditional id (ts ++ [t])).covers i = true := by
  obtain ⟨u, hu, hcovers⟩ := hi
  obtain ⟨-, hw⟩ := h.toLast
  obtain ⟨first, rest, he⟩ := List.exists_cons_of_ne_nil (List.concat_ne_nil t ts)
  have hlast : (first :: rest).getLast? = some t := by rw [← he, List.getLast?_concat]
  rw [he] at hw hu ⊢
  obtain ⟨-, hw⟩ := hw.fromHead
  obtain ⟨hstart, hstop⟩ := hw.bounds u hu
  have hcovers' := covers_iff.1 hcovers
  rw [covers_iff]
  simp only [Tree.conditional, start, stop, Tree.head, NodeHead.plain, List.head?_cons, hlast, Option.map_some,
    Option.getD_some] at *
  omega

/-- Every block among nodes `depth` blocks deep, and below them, is filled, as in an outline. -/
inductive Full (all : List Focus) (b : Braces) : Nat → List Tree → Prop where
  | nil {depth : Nat} : Full all b depth []
  | cons {depth id : Nat} {head : NodeHead} {children rest : List Tree}
      (hhead : head.Filled all b depth (Holds children))
      (hinner : Full all b (depth + head.isBlock.toNat) children) (hrest : Full all b depth rest) :
      Full all b depth (node id head children :: rest)

section

variable {P : NodeHead → Prop} {all : List Focus} {b : Braces} {depth low high : Nat} {g : Grouping} {t : Tree}
  {ts us : List Tree}

theorem full_append : Full all b depth (ts ++ us) ↔ Full all b depth ts ∧ Full all b depth us := by
  constructor
  · intro h
    induction ts with
    | nil => exact ⟨.nil, h⟩
    | cons t ts ih =>
      cases h with
      | cons hhead hinner hrest =>
        obtain ⟨hts, hus⟩ := ih hrest
        exact ⟨.cons hhead hinner hts, hus⟩
  · rintro ⟨ht, hu⟩
    induction ht with
    | nil => exact hu
    | cons hhead hinner _ _ ih => exact .cons hhead hinner (ih hu)

namespace Grouping

theorem step_holds (h : Within P low high (g.siblings ++ [t])) {i : Nat} (hi : Holds (g.siblings ++ [t]) i) :
    Holds (g.step t).siblings i := by
  rcases g.step_cases t with ⟨hs, -⟩ | ⟨front, members, hg, hs, -⟩
  · rwa [hs]
  · rw [hg, List.append_assoc] at h hi
    rw [hs]
    obtain ⟨mid, -, hmembers⟩ := h.split
    rcases holds_append.1 hi with hi | hi
    · exact holds_append.2 (.inl hi)
    · exact holds_append.2 (.inr ⟨_, List.mem_singleton_self _, hmembers.conditional_covers _ hi⟩)

theorem step_full (h : Full all b depth (g.siblings ++ [t])) : Full all b depth (g.step t).siblings := by
  rcases g.step_cases t with ⟨hs, -⟩ | ⟨front, members, hg, hs, -⟩
  · rwa [hs]
  · rw [hg, List.append_assoc, full_append] at h
    rw [hs, full_append]
    refine ⟨h.1, .cons (.of_kind_ne ?_) h.2 .nil⟩
    simp [NodeHead.plain]

/-- A run of siblings keeps what each of them keeps. -/
theorem foldl_full (hP : ∀ start stop, P (NodeHead.plain .preprocessorBlock start stop))
    (hw : Within P low high (g.siblings ++ ts)) (h : Full all b depth (g.siblings ++ ts)) :
    Full all b depth (ts.foldl step g).siblings ∧
      ∀ i, Holds (g.siblings ++ ts) i → Holds (ts.foldl step g).siblings i := by
  induction ts generalizing g with
  | nil =>
    rw [List.append_nil] at h ⊢
    exact ⟨h, fun _ hi ↦ hi⟩
  | cons t ts ih =>
    rw [List.append_cons] at hw h ⊢
    obtain ⟨mid, hfront, hts⟩ := hw.split
    obtain ⟨hfull, hfullRest⟩ := full_append.1 h
    obtain ⟨hdone, hholds⟩ := ih ((step_within hP hfront).append hts) (full_append.2 ⟨step_full hfull, hfullRest⟩)
    refine ⟨hdone, fun i hi ↦ hholds i ?_⟩
    rcases holds_append.1 hi with hi | hi
    · exact holds_append.2 (.inl (step_holds hfront hi))
    · exact holds_append.2 (.inr hi)

end Grouping

theorem holds_numberAll (next : Nat) (os : List Outline) (i : Nat) (h : Outline.Holds os i) :
    Holds (numberAll next os).1 i := by
  induction os generalizing next with
  | nil =>
    obtain ⟨o, ho, -⟩ := h
    cases ho
  | cons o os ih =>
    obtain ⟨o', ho, hrange⟩ := h
    rcases List.mem_cons.1 ho with rfl | ho
    · refine ⟨_, List.mem_cons_self .., covers_iff.2 ?_⟩
      cases o'
      exact hrange
    · obtain ⟨t, ht, hcovers⟩ := ih (number next o).2 ⟨o', ho, hrange⟩
      exact ⟨t, List.mem_cons_of_mem _ ht, hcovers⟩

theorem numberAll_full {os : List Outline} (h : Outline.Full all b depth os) (next : Nat) :
    Full all b depth (numberAll next os).1 := by
  induction h generalizing next with
  | nil => exact .nil
  | cons hhead _ _ ihInner ihRest =>
    refine .cons (hhead.mono (fun _ hq ↦ hq) (fun _ hf ↦ hf) ?_) (ihInner _) (ihRest _)
    exact holds_numberAll _ _

theorem holds_regroupAll (next : Nat) (ts : List Tree) (i : Nat) (h : Holds ts i) :
    Holds (regroupAll next ts).1 i := by
  induction ts generalizing next with
  | nil =>
    obtain ⟨t, ht, -⟩ := h
    cases ht
  | cons t ts ih =>
    obtain ⟨u, hu, hcovers⟩ := h
    rcases List.mem_cons.1 hu with rfl | hu
    · refine ⟨_, List.mem_cons_self .., ?_⟩
      cases u
      exact hcovers
    · obtain ⟨v, hv, hcovers⟩ := ih (regroup next t).2 ⟨u, hu, hcovers⟩
      exact ⟨v, List.mem_cons_of_mem _ hv, hcovers⟩

theorem regroupAll_full (hP : ∀ start stop, P (NodeHead.plain .preprocessorBlock start stop))
    (hw : Within P low high ts) (h : Full all b depth ts) (next : Nat) :
    Full all b depth (regroupAll next ts).1 := by
  induction h generalizing low high next with
  | nil => exact .nil
  | cons hhead _ _ ihInner ihRest =>
    rename_i depth id head children rest _ _
    cases hw with
    | cons hlow hne hPhead hinner hrest =>
      have hchildren := regroupAll_within hP hinner (group next children).next
      obtain ⟨hfull, hholds⟩ := Grouping.foldl_full (g := ⟨[], [], 0, next⟩) hP hchildren (ihInner hinner _)
      refine .cons (hhead.mono (fun _ hq ↦ hq) (fun _ hf ↦ hf) fun i hi ↦ ?_) hfull (ihRest hrest _)
      exact hholds i (holds_regroupAll _ _ i hi)

theorem visits_filled (h : Full all b depth ts) {above : List Tree} (hd : above.countP isBlock = depth) :
    ∀ t ∈ ts, ∀ v ∈ t.visits above,
      v.tree.head.Filled all b (v.above.countP isBlock) (Holds v.tree.children) := by
  induction h generalizing above with
  | nil => simp
  | cons hhead _ _ ihInner ihRest =>
    rename_i id head children rest _ _
    intro t ht v hv
    rcases List.mem_cons.1 ht with rfl | ht
    · rw [visits_eq_cons] at hv
      rcases List.mem_cons.1 hv with rfl | hv
      · rw [hd]
        exact hhead
      · obtain ⟨c, hc, hv⟩ := List.mem_flatMap.1 hv
        refine ihInner ?_ c hc v hv
        rw [List.countP_cons, hd, isBlock, Tree.head]
        cases head.isBlock <;> rfl
    · exact ihRest hd t ht v hv

theorem root_visits_filled {root : Tree} (hkind : root.kind ≠ .braceBlock) (h : Full all b 0 root.children) :
    ∀ v ∈ root.visits [], v.tree.head.Filled all b (v.above.countP isBlock) (Holds v.tree.children) := by
  intro v hv
  rw [visits_eq_cons] at hv
  rcases List.mem_cons.1 hv with rfl | hv
  · exact .of_kind_ne hkind
  · obtain ⟨c, hc, hv⟩ := List.mem_flatMap.1 hv
    refine visits_filled h ?_ c hc v hv
    have hroot : root.isBlock = false := by simp [isBlock, NodeHead.isBlock, show root.head.kind ≠ _ from hkind]
    rw [List.countP_singleton, hroot, if_neg (by decide)]

end

/-- What is promised of the tokens of a file that are kept. -/
structure Complete (tokens : List Token) (root : Tree) : Prop where
  file : ∀ f ∈ Focus.all tokens, f.token.isKept = true → root.children.countP (·.covers f.index) = 1
  /-- In a block that is read, all but its own two braces are in one child. -/
  block : ∀ v ∈ root.visits [], v.tree.isBlock = true → v.above.countP isBlock < maxDepth →
    ∀ f ∈ Focus.all tokens, f.token.isKept = true → v.tree.covers f.index = true → f.index ≠ v.tree.start →
      (∀ o, (o, f) ∈ (Braces.of (Focus.all tokens)).pairs → o.index ≠ v.tree.start) →
      v.tree.children.countP (·.covers f.index) = 1
  /-- In a block that stands for what follows a stray brace, all but the strays are. -/
  recovered : ∀ v ∈ root.visits [], v.tree.kind = .braceBlock → v.tree.head.recovered = true →
    ∀ f ∈ Focus.all tokens, f.token.isKept = true → v.tree.covers f.index = true →
      f ∉ (Braces.of (Focus.all tokens)).strays → v.tree.children.countP (·.covers f.index) = 1

theorem ofOutline_full {P : NodeHead → Prop} {all : List Focus} {b : Braces} {low high : Nat}
    (hP : ∀ start stop, P (NodeHead.plain .preprocessorBlock start stop)) {head : NodeHead} {os : List Outline}
    (hw : Outline.Within P low high os) (h : Outline.Full all b 0 os) :
    Full all b 0 (ofOutline (.node head os)).children ∧
      ∀ i, Outline.Holds os i → Holds (ofOutline (.node head os)).children i := by
  have hwithin := regroupAll_within hP (numberAll_within hw (0 + 1))
  have hfull := regroupAll_full hP (numberAll_within hw (0 + 1)) (numberAll_full h _)
  obtain ⟨hgrouped, hholds⟩ := Grouping.foldl_full (g := ⟨[], [], 0, (numberAll (0 + 1) os).2⟩) hP
    (hwithin (group (numberAll (0 + 1) os).2 (numberAll (0 + 1) os).1).next) (hfull _)
  refine ⟨hgrouped, fun i hi ↦ hholds i ?_⟩
  exact holds_regroupAll _ _ i (holds_numberAll _ _ i hi)

theorem full_ofFoci (tokens : List Token) :
    Full (Focus.all tokens) (Braces.of (Focus.all tokens)) 0
        (ofOutline (Outline.ofFoci (Focus.all tokens)).1).children ∧
      ∀ f ∈ Focus.all tokens, f.token.isKept = true →
        Holds (ofOutline (Outline.ofFoci (Focus.all tokens)).1).children f.index := by
  have hall := Focus.all_consecutive tokens
  have hsound := (Outline.forest_sound (Q := fun _ ↦ True) 0 false false hall fun _ _ ↦ trivial).nodes
  have hnamed (start stop : Nat) : (NodeHead.plain .preprocessorBlock start stop).Named fun _ ↦ True := by
    simp [NodeHead.Named, NodeHead.plain]
  obtain ⟨hfull, hholds⟩ := ofOutline_full hnamed hsound (Outline.forest_full 0 false false hall (.self _))
  refine ⟨hfull, fun f hf hkept ↦ hholds f.index ?_⟩
  exact (Outline.forest_holds 0 false false hall f hf hkept).resolve_left fun h ↦ by cases h.1

/-- For every token sequence, the tree drops nothing but blanks, line breaks and malformed pieces. -/
theorem ofFoci_complete (tokens : List Token) :
    Complete tokens (ofOutline (Outline.ofFoci (Focus.all tokens)).1) := by
  obtain ⟨hfull, hheld⟩ := full_ofFoci tokens
  have hwithin := @within_node tokens
  have hroot : (ofOutline (Outline.ofFoci (Focus.all tokens)).1).kind ≠ .braceBlock := by
    intro hkind
    cases hkind
  generalize ofOutline (Outline.ofFoci (Focus.all tokens)).1 = root at hfull hwithin hroot hheld
  have hfilled := root_visits_filled hroot hfull
  have hvisits : ∀ v ∈ root.visits [], v.tree ∈ root.preorder := fun v hv ↦ List.mem_map_of_mem hv
  constructor
  case file =>
    intro f hf hkept
    exact (hwithin root.self_mem_preorder).count_covers (hheld f hf hkept)
  case block =>
    intro v hv hblock hdepth f hf hkept hcovers hopening hclosing
    obtain ⟨hstart, hstop⟩ := covers_iff.1 hcovers
    apply (hwithin (hvisits v hv)).count_covers
    rcases (hfilled v hv).block hblock hdepth f hf hkept hstart hstop with hi | ⟨o, ho, hi⟩ | hi
    · exact absurd hi hopening
    · exact absurd hi (hclosing o ho)
    · exact hi
  case recovered =>
    intro v hv hkind hrec f hf hkept hcovers hstray
    obtain ⟨hstart, hstop⟩ := covers_iff.1 hcovers
    apply (hwithin (hvisits v hv)).count_covers
    exact ((hfilled v hv).recovered hkind hrec f hf hkept hstart hstop).resolve_left hstray

end Tree

end CodeStyle
