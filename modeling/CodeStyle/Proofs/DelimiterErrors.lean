import CodeStyle.Proofs.BraceBlocks
import CodeStyle.Proofs.Delimiters

/-!
What the absence of delimiter errors says about a file. Two kinds of places are not looked at: the labels
of cases, and brace groups that are no blocks, or blocks too deep to be read. A file without errors is
nested exactly where these are.
-/

namespace CodeStyle

namespace Focus

/-- A region of the file that has the tokens `all`, from the `i`-th on. -/
def Placed (all : List Focus) (i : Nat) (region : List Focus) : Prop :=
  ∀ (k : Nat) (f : Focus), region[k]? = some f → all[i + k]? = some f

namespace Placed

variable {all region rest : List Focus} {i : Nat} {f : Focus}

theorem drop (h : Placed all i region) (n : Nat) : Placed all (i + n) (region.drop n) := by
  intro k f hf
  rw [List.getElem?_drop] at hf
  rw [Nat.add_assoc]
  exact h _ f hf

theorem tail (h : Placed all i (f :: rest)) : Placed all (i + 1) rest := h.drop 1

theorem take (h : Placed all i region) (n : Nat) : Placed all i (region.take n) := by
  intro k f hf
  rw [List.getElem?_take] at hf
  split at hf
  · exact h k f hf
  · cases hf

theorem take_eq (h : Placed all i region) {n : Nat} (hn : n ≤ region.length) :
    region.take n = (all.drop i).take n := by
  refine List.ext_getElem? fun k ↦ ?_
  rw [List.getElem?_take, List.getElem?_take, List.getElem?_drop]
  split
  · rename_i hk
    have hlt : k < region.length := Nat.lt_of_lt_of_le hk hn
    rw [List.getElem?_eq_getElem hlt]
    exact (h k _ (List.getElem?_eq_getElem hlt)).symm
  · rfl

theorem left {front back : List Focus} (h : Placed all i (front ++ back)) : Placed all i front := by
  have hfront := h.take front.length
  rwa [List.take_left] at hfront

theorem right {front back : List Focus} (h : Placed all i (front ++ back)) :
    Placed all (i + front.length) back := by
  have hback := h.drop front.length
  rwa [List.drop_left] at hback

theorem self (all : List Focus) : Placed all 0 all := by
  intro k f hf
  rwa [Nat.zero_add]

theorem consecutive (h : Placed all i region) (hall : Consecutive 0 all) : Consecutive i region := by
  intro k f hf
  rw [hall _ f (h k f hf), Nat.zero_add]

end Placed

theorem Consecutive.index_mem {i : Nat} {region : List Focus} {f : Focus} (h : Consecutive i region)
    (hf : f ∈ region) : i ≤ f.index ∧ f.index < i + region.length := by
  obtain ⟨k, hk, rfl⟩ := List.mem_iff_getElem.1 hf
  have := h k _ (List.getElem?_eq_getElem hk)
  omega

end Focus

/-- The tokens between two braces. -/
def between (all : List Focus) (q : Focus × Focus) : List Focus :=
  (all.drop (q.1.index + 1)).take (q.2.index - q.1.index - 1)

theorem between_placed (all : List Focus) (q : Focus × Focus) :
    Focus.Placed all (q.1.index + 1) (between all q) := by
  have h := ((Focus.Placed.self all).drop (q.1.index + 1)).take (q.2.index - q.1.index - 1)
  rwa [Nat.zero_add] at h

theorem between_pair {all front back : List Focus} {i : Nat} {f close : Focus} (hall : Focus.Consecutive 0 all)
    (h : Focus.Placed all i (f :: (front ++ close :: back))) : between all (f, close) = front := by
  have hf : f.index = i := (h.consecutive hall).head
  have hclose : close.index = i + 1 + front.length := (h.tail.right.consecutive hall).head
  have hcount : close.index - f.index - 1 = front.length := by omega
  have hfront := h.tail.left.take_eq (Nat.le_refl front.length)
  rw [List.take_length] at hfront
  rw [between, hcount, hf, ← hfront]

/-- No brace of a region is left over, and what stands between two of a pair is nested. -/
structure Braces.Nests (all : List Focus) (b : Braces) : Prop where
  strays : b.strays = []
  opens : b.opens = []
  pairs : ∀ q ∈ b.pairs, Nested (between all q)

namespace Braces.Nests

variable {all front back : List Focus} {b c : Braces} {i : Nat} {f close : Focus}

theorem extend (hb : b.Nests all) (hc : c.Nests all) : (b.extend c).Nests all := by
  refine ⟨by simp [Braces.extend, hb.strays, hc.strays], by simp [Braces.extend, hb.opens, hc.opens], ?_⟩
  exact List.forall_mem_append.2 ⟨hb.pairs, hc.pairs⟩

theorem braces (hf : f.token.isPunct "\x7b" = true) (hclose : close.token.isPunct "\x7d" = true)
    (hfront : (of front).Nests all) (hback : (of back).Nests all) (hpair : Nested (between all (f, close))) :
    (of (f :: (front ++ close :: back))).Nests all := by
  have hgroup := Braces.of_closed hf hclose hfront.strays hfront.opens
  have hsplit : of (f :: (front ++ [close]) ++ back) = (of (f :: (front ++ [close]))).extend (of back) :=
    Braces.of_append (.inr (by rw [hgroup]))
  rw [List.cons_append, List.append_assoc, List.singleton_append] at hsplit
  rw [hsplit, hgroup]
  refine extend ⟨rfl, rfl, List.forall_mem_append.2 ⟨hfront.pairs, ?_⟩⟩ hback
  rwa [List.forall_mem_singleton]

theorem others (hf : Plain f) (hclose : Plain close) (hfront : (of front).Nests all)
    (hback : (of back).Nests all) : (of (f :: (front ++ close :: back))).Nests all := by
  rw [Braces.of_cons_plain hf, Braces.of_append (.inr hfront.opens), Braces.of_cons_plain hclose]
  exact hfront.extend hback

end Braces.Nests

theorem Nested.braces {all region : List Focus} {i : Nat} (hall : Focus.Consecutive 0 all)
    (hplaced : Focus.Placed all i region) (h : Nested region) : (Braces.of region).Nests all := by
  -- What stands behind a delimiter is cut where that delimiter is closed; both parts are shorter.
  induction hn : region.length using Nat.strongRecOn generalizing region i with
  | ind n ih =>
    subst hn
    cases region with
    | nil => exact ⟨rfl, rfl, by simp [Braces.of, Braces.after, Braces.none]⟩
    | cons f rest =>
      rw [Nested, nest_cons] at h
      obtain ⟨next, hstep, hrest⟩ := Option.bind_eq_some_iff.1 h
      cases ho : f.token.opens? with
      | none =>
        cases hc : f.token.closes? with
        | none =>
          have hbare : f.Bare := ⟨ho, hc⟩
          rw [nestStep_bare hbare] at hstep
          cases hstep
          rw [Braces.of_cons_plain hbare.plain]
          exact ih rest.length (by simp) hplaced.tail hrest rfl
        | some c => cases nestStep_closed ho hc hstep
      | some c =>
        rw [nestStep_opens ho] at hstep
        cases hstep
        have hopen : nest ([] ++ c :: []) rest = some [] := hrest
        obtain ⟨front, close, back, rfl, hfront, hopens, hcloses, hback⟩ := nest_split hopen
        have hlen : (f :: (front ++ close :: back)).length = front.length + back.length + 2 := by
          simp only [List.length_cons, List.length_append]
          omega
        have hinner := ih front.length (by omega) hplaced.tail.left hfront rfl
        have hlater := ih back.length (by omega) hplaced.tail.right.tail hback rfl
        by_cases hf : f.token.isPunct "\x7b" = true
        · obtain rfl := Option.some.inj (ho.symm.trans (Token.opens?_eq_brace.2 hf))
          refine .braces hf (Token.closes?_eq_brace.1 hcloses) hinner hlater ?_
          rwa [between_pair hall hplaced]
        · refine .others ⟨by simpa using hf, ?_⟩ ⟨?_, ?_⟩ hinner hlater
          · exact Bool.eq_false_iff.2 fun hp ↦ by simp [Token.opens?_of_isPunct hp] at ho
          · exact Bool.eq_false_iff.2 fun hp ↦ by simp [Token.opens?_of_isPunct hp] at hopens
          · refine Bool.eq_false_iff.2 fun hp ↦ hf (Token.opens?_eq_brace.1 ?_)
            rw [ho, ← hcloses, Token.closes?_eq_brace.2 hp]

theorem BraceGroup.Fit.le_high {start low high : Nat} {gs : List BraceGroup} (h : Fit start low high gs) :
    ∀ g ∈ gs, g.skip + g.size ≤ high := by
  have low_le {low high : Nat} {gs : List BraceGroup} (h : Fit start low high gs) : low ≤ high := by
    induction h with
    | nil h => exact h
    | cons hlow _ _ ih => omega
  induction h with
  | nil => simp
  | cons _ _ hrest ih => exact List.forall_mem_cons.2 ⟨low_le hrest, ih⟩

theorem BraceGroup.closed_of_errors {g : BraceGroup} (h : g.errors = []) : g.closed = true := by
  by_contra hopen
  simp [BraceGroup.errors, hopen] at h

theorem BraceGroup.of_front {rest : List Focus} {i : Nat} {f : Focus} {inFunction : Bool} {g : BraceGroup}
    (hc : Focus.Consecutive i (f :: rest)) (hg : g = BraceGroup.of f 0 inFunction rest) :
    g.skip = 0 ∧ g.opening.index = i + g.skip ∧ g.skip + g.inside ≤ rest.length := by
  have hskip : g.skip = 0 := by rw [hg, BraceGroup.of_skip]
  have hsize : g.size ≤ rest.length + 1 := hg ▸ BraceGroup.of_size_le ..
  have hpos := g.inside_lt_size
  refine ⟨hskip, ?_, by omega⟩
  rw [hskip, hg, BraceGroup.of_opening, hc.head, Nat.add_zero]

theorem BraceGroup.drop_size (g : BraceGroup) (f : Focus) (rest : List Focus) :
    (f :: rest).drop g.size = rest.drop (g.size - 1) := by
  have hdrop : (f :: rest).drop 0 = f :: rest := rfl
  rw [← ItemDraft.drop_group g hdrop, Nat.zero_add]

theorem mem_pairs_of_take {region : List Focus} {n : Nat} {q : Focus × Focus}
    (hq : q ∈ (Braces.of (region.take n)).pairs) : q ∈ (Braces.of region).pairs := by
  have hmem := Braces.mem_pairs_after hq (region.drop n)
  rwa [Braces.of, ← Braces.after_append, List.take_append_drop] at hmem

theorem mem_pairs_of_drop {region : List Focus} {n : Nat} {q : Focus × Focus}
    (hsettled : (Braces.of (region.take n)).opens = [] ∨ region.length ≤ n)
    (hq : q ∈ (Braces.of (region.drop n)).pairs) : q ∈ (Braces.of region).pairs := by
  rcases hsettled with hopens | hlen
  · have hsplit : Braces.of (region.take n ++ region.drop n) =
        (Braces.of (region.take n)).extend (Braces.of (region.drop n)) := Braces.of_append (.inr hopens)
    rw [List.take_append_drop] at hsplit
    rw [hsplit]
    exact List.mem_append_right _ hq
  · rw [List.drop_eq_nil_of_le hlen] at hq
    cases hq

/-- The inside of a closed group is what stands between the braces of a pair. -/
theorem BraceGroup.Fits.between {all rest : List Focus} {b : Braces} {g : BraceGroup} {i : Nat}
    (h : g.Fits rest b) (hplaced : Focus.Placed all (i + 1) rest) (hat : g.opening.index = i + g.skip)
    (hclosed : g.closed = true) (hinside : g.skip + g.inside ≤ rest.length) :
    ∃ q ∈ b.pairs, q.1 = g.opening ∧ q.2.index + 1 = g.opening.index + g.size ∧
      between all q = g.content rest := by
  obtain ⟨-, close, hpair, hindex⟩ := h.closed hclosed
  refine ⟨_, hpair, rfl, hindex, ?_⟩
  rw [BraceGroup.size, if_pos hclosed] at hindex
  have hcount : close.index - g.opening.index - 1 = g.inside := by omega
  have hplace : g.opening.index + 1 = i + 1 + g.skip := by omega
  rw [CodeStyle.between, hcount, hplace, BraceGroup.content]
  exact ((hplaced.drop g.skip).take_eq (by rw [List.length_drop]; omega)).symm

namespace Outline

def children : Outline → List Outline
  | node _ children => children

def foci (all : List Focus) (o : Outline) : List Focus :=
  (all.drop o.head.start).take (o.head.stop - o.head.start)

/-- Whether a node is the label of a case. -/
def isCase (all : List Focus) (o : Outline) : Bool :=
  o.head.kind == .statement && all[o.head.start]?.any (·.token.startsCase)

/-- The tokens of the labels of cases among siblings. -/
def labels (all : List Focus) (os : List Outline) : List Focus :=
  (os.filter (·.isCase all)).flatMap (·.foci all)

theorem labels_cons_case {all : List Focus} {o : Outline} (h : o.isCase all = true) (os : List Outline) :
    labels all (o :: os) = o.foci all ++ labels all os := by
  simp [labels, h]

theorem labels_cons_other {all : List Focus} {o : Outline} (h : o.isCase all = false) (os : List Outline) :
    labels all (o :: os) = labels all os := by
  simp [labels, h]

theorem labels_append (all : List Focus) (front back : List Outline) :
    labels all (front ++ back) = labels all front ++ labels all back := by
  simp [labels]

section

variable {all rest : List Focus} {i : Nat} {f : Focus} {inFunction : Bool}

theorem group_nested {g : BraceGroup} (hall : Focus.Consecutive 0 all) (hplaced : Focus.Placed all i (f :: rest))
    (hf : f.token.isPunct "\x7b" = true) (hg : g = BraceGroup.of f 0 inFunction rest) (hclosed : g.closed = true)
    (hpairs : ∀ q ∈ (Braces.of (f :: rest)).pairs, Nested (between all q)) :
    Nested ((f :: rest).take g.size) := by
  have hc := hplaced.consecutive hall
  obtain ⟨hskip, hat, hinside⟩ := BraceGroup.of_front hc hg
  obtain ⟨-, hfits, -⟩ := ItemDraft.front_group_fits hc hf hg rfl
  obtain ⟨q, hq, -, -, hbetween⟩ := hfits.between hplaced.tail hat hclosed hinside
  have hcontent := hpairs q (mem_pairs_of_take hq)
  rw [hbetween, BraceGroup.content, hskip, List.drop_zero] at hcontent
  exact BraceGroup.nested hg hf hclosed hcontent

theorem item_nested {d : ItemDraft} {gs : List BraceGroup} (hplaced : Focus.Placed all i (f :: rest))
    (hgs : d.Checked i (f :: rest) gs) (hclean : d.Clean) (hmore : d.more < rest.length + 1)
    (hpairs : ∀ q ∈ (Braces.of (f :: rest)).pairs, Nested (between all q)) :
    Nested ((f :: rest).take (d.more + 1)) := by
  refine hgs.nested hclean fun g hg ↦ ?_
  have hhigh := hgs.layout.le_high g hg
  have hpos := g.inside_lt_size
  obtain ⟨q, hq, -, -, hbetween⟩ :=
    (hgs.fits g hg).between hplaced.tail (hgs.layout.at_skip g hg) (hgs.closed hclean g hg)
      (by rw [List.tail_cons]; omega)
  rw [← hbetween]
  exact hpairs q (mem_pairs_of_take hq)

end

theorem item_isCase {all rest : List Focus} {i : Nat} {f : Focus} {inFunction : Bool} {d : ItemDraft}
    (hall : Focus.Consecutive 0 all) (hplaced : Focus.Placed all i (f :: rest))
    (hd : d = ItemDraft.of inFunction f rest) {head : NodeHead} (hkind : head.kind = d.kind)
    (hstart : head.start = f.index) (os : List Outline) :
    (node head os).isCase all = f.token.startsCase := by
  have hat : all[f.index]? = some f := (hplaced.consecutive hall).head ▸ hplaced 0 f rfl
  rw [isCase, Outline.head, hkind, hstart, hat, Option.any_some]
  cases hcase : f.token.startsCase with
  | false => exact Bool.and_false _
  | true => rw [hd, ItemDraft.of_startsCase hcase]; rfl

/-- An item without errors is nested, or is the label of a case. -/
theorem nest_item {all rest : List Focus} {i : Nat} {f : Focus} {inFunction : Bool} {d : ItemDraft} {t : Forest}
    (hall : Focus.Consecutive 0 all) (hplaced : Focus.Placed all i (f :: rest)) (hplain : Braces.Plain f)
    (hskipped : (f.token.isTrivia || f.token.kind.isInvalid) = false) (hd : d = ItemDraft.of inFunction f rest)
    (hclean : d.Clean) (hpairs : ∀ q ∈ (Braces.of (f :: rest)).pairs, Nested (between all q))
    (stack : List Char) :
    nest stack ((f :: rest).take (d.more + 1)) = nest stack (labels all (Forest.item f d t).nodes) := by
  have hc := hplaced.consecutive hall
  have hmore : d.more < rest.length + 1 :=
    hd ▸ (ItemDraft.of_sound (P := fun _ ↦ True) ⟨hc, fun _ _ ↦ trivial, Nat.zero_add _⟩ inFunction).more_lt
  obtain ⟨head, hnodes, hkind, hstart, hstop⟩ : ∃ head : NodeHead,
      (Forest.item f d t).nodes = [node head t.nodes] ∧ head.kind = d.kind ∧ head.start = f.index ∧
        head.stop = f.index + d.more + 1 := ⟨_, rfl, rfl, rfl, rfl⟩
  have hisCase := item_isCase hall hplaced hd hkind hstart t.nodes
  rw [hnodes]
  cases hcase : f.token.startsCase with
  | true =>
    have hcount : f.index + d.more + 1 - f.index = d.more + 1 := by omega
    rw [labels_cons_case (hisCase.trans hcase), foci, Outline.head, hstart, hstop, hcount, hc.head,
      ← hplaced.take_eq hmore]
    exact congrArg _ (List.append_nil _).symm
  | false =>
    obtain ⟨gs, hgs⟩ : ∃ gs, d.Checked i (f :: rest) gs :=
      hd ▸ ItemDraft.of_checked hc hplain hskipped hcase inFunction
    rw [labels_cons_other (hisCase.trans hcase)]
    exact nest_of_nested (item_nested hplaced hgs hclean hmore hpairs) stack

theorem block_errors {gs : List BraceGroup} {content : BraceGroup → Forest}
    (h : ((gs.map fun g ↦ Forest.block g (content g)).foldl Forest.append Forest.empty).errors = []) :
    ∀ g ∈ gs, (Forest.block g (content g)).errors = [] := by
  intro g hg
  refine List.eq_nil_iff_forall_not_mem.2 fun e he ↦ ?_
  have hmem := Forest.mem_errors_foldl.2
    ⟨_, List.mem_map_of_mem (f := fun g ↦ Forest.block g (content g)) hg, he⟩
  rw [h] at hmem
  cases hmem

/-- As far as nesting goes, a region that is read without errors is its labels of cases. -/
theorem nest_forest {all region : List Focus} {i : Nat} (depth : Nat) (inFunction recovering : Bool)
    (hall : Focus.Consecutive 0 all) (hplaced : Focus.Placed all i region)
    (herrors : (forest depth inFunction recovering region).errors = [])
    (hpairs : ∀ q ∈ (Braces.of region).pairs, Nested (between all q)) (stack : List Char) :
    nest stack region = nest stack (labels all (forest depth inFunction recovering region).nodes) := by
  fun_induction forest depth inFunction recovering region generalizing i stack with
  | case1 => rfl
  | case2 _ _ _ f rest hf =>
    rename_i ih
    have hcode : f.isCode = false := Token.Kind.isCode_of_skipped hf
    rw [Braces.of_cons_plain (Braces.plain_of_not_isCode hcode)] at hpairs
    rw [nest_cons, nestStep_bare (.of_not_isCode hcode), Option.bind_some]
    exact ih hplaced.tail herrors hpairs stack
  | case3 | case4 => simp [Forest.append] at herrors
  | case5 depth inFunction recovering f rest _ _ hf g content ihInside =>
    rename_i ihRest
    obtain ⟨hblock, hlater⟩ := List.append_eq_nil_iff.1 herrors
    have hclosed := BraceGroup.closed_of_errors (List.append_eq_nil_iff.1 hblock).1
    obtain ⟨-, -, hsettled, -⟩ := ItemDraft.front_group_fits (hplaced.consecutive hall) hf (g := g) rfl rfl
    -- The block is nested as a whole, so it leaves the stack as it finds it.
    have hnested := group_nested hall hplaced hf rfl hclosed hpairs
    rw [← g.drop_size f] at ihRest hlater ⊢
    have hrest := ihRest (hplaced.drop g.size) hlater
      (fun q hq ↦ hpairs q (mem_pairs_of_drop (.inl (hsettled hclosed)) hq)) stack
    rw [Forest.append, Forest.block, List.singleton_append, labels_cons_other rfl, ← hrest]
    conv_lhs => rw [← List.take_append_drop g.size (f :: rest), nest_nested_append hnested]
  | case6 depth inFunction recovering f rest hskip hclose hopen d blocks ihInside =>
    rename_i ihRest
    obtain ⟨hitem, hlater⟩ := List.append_eq_nil_iff.1 herrors
    obtain ⟨hown, hblocks⟩ := List.append_eq_nil_iff.1 hitem
    have hplain : Braces.Plain f := ⟨by simpa using hopen, by simpa using hclose⟩
    have hbraced : d.Braced (f :: rest) := ItemDraft.of_braced (hplaced.consecutive hall) hplain inFunction
    have hclean : d.Clean := by
      refine ⟨hown, fun g hg ↦ BraceGroup.closed_of_errors ?_⟩
      exact (List.append_eq_nil_iff.1 (block_errors hblocks g hg)).1
    have hrest := ihRest (hplaced.tail.drop d.more) hlater
      (fun q hq ↦ hpairs q (mem_pairs_of_drop hbraced.settled hq))
    have hfront := nest_item (t := blocks.foldl Forest.append Forest.empty) hall hplaced hplain
      (by simpa using hskip) rfl hclean hpairs stack
    rw [Forest.append, labels_append, nest_append, ← hfront]
    conv_lhs => rw [← List.take_append_drop (d.more + 1) (f :: rest), nest_append]
    exact congrArg _ (funext hrest)

/-- What is read of the inside of a block `depth` blocks deep. -/
def inside (depth : Nat) (inFunction : Bool) (region : List Focus) : Forest :=
  if maxDepth ≤ depth then Forest.empty else forest (depth + 1) inFunction false region

/-- Whether a node is the block of a pair of braces. -/
def spans (o : Outline) (q : Focus × Focus) : Bool :=
  o.head.kind == .braceBlock && o.head.start == q.1.index && o.head.stop == q.2.index + 1

/-- A node is read, without errors, from what stands between two braces, or it has no label below it. -/
def Sourced (all : List Focus) (b : Braces) (o : Outline) : Prop :=
  (∃ q ∈ b.pairs, o.spans q = true ∧ (∀ p ∈ (Braces.of (between all q)).pairs, p ∈ b.pairs) ∧
    ∃ depth inFunction, (inside depth inFunction (between all q)).errors = [] ∧
      o.children = (inside depth inFunction (between all q)).nodes) ∨
  (o.head.kind ≠ .braceBlock ∧ labels all o.children = [])

theorem Sourced.mono {all : List Focus} {b c : Braces} {o : Outline} (h : o.Sourced all b)
    (hpairs : ∀ q ∈ b.pairs, q ∈ c.pairs) : o.Sourced all c := by
  rcases h with ⟨q, hq, hspans, hinner, hread⟩ | h
  · exact .inl ⟨q, hpairs q hq, hspans, fun p hp ↦ hpairs p (hinner p hp), hread⟩
  · exact .inr h

section

variable {all rest : List Focus} {i depth : Nat} {f : Focus} {inFunction : Bool} {g : BraceGroup}

theorem block_sourced {b : Braces} (hfits : g.Fits rest b) (hplaced : Focus.Placed all (i + 1) rest)
    (hat : g.opening.index = i + g.skip) (hinside : g.skip + g.inside ≤ rest.length)
    (herrors : (Forest.block g (inside depth inFunction (g.content rest))).errors = [])
    (hread : (forest (depth + 1) inFunction false (g.content rest)).errors = [] →
      ∀ o ∈ preorderAll (forest (depth + 1) inFunction false (g.content rest)).nodes,
        o.Sourced all (Braces.of (g.content rest))) :
    ∀ o ∈ preorderAll (Forest.block g (inside depth inFunction (g.content rest))).nodes, o.Sourced all b := by
  obtain ⟨hown, hinner⟩ := List.append_eq_nil_iff.1 herrors
  obtain ⟨q, hq, hopening, hindex, hbetween⟩ :=
    hfits.between hplaced hat (BraceGroup.closed_of_errors hown) hinside
  intro o ho
  rw [Forest.block, preorderAll_singleton] at ho
  rcases List.mem_cons.1 ho with rfl | ho
  · refine .inl ⟨q, hq, ?_, ?_, depth, inFunction, ?_⟩
    · simp [spans, Outline.head, NodeHead.plain, hopening, hindex]
    · rw [hbetween]
      exact hfits.pairs
    · rw [hbetween]
      exact ⟨hinner, rfl⟩
  · unfold inside at hinner ho
    split at ho
    · simp [Forest.empty] at ho
    · rename_i hdepth
      rw [if_neg hdepth] at hinner
      exact (hread hinner o ho).mono hfits.pairs

theorem labels_blocks (all : List Focus) (gs : List BraceGroup) (content : BraceGroup → Forest) :
    labels all ((gs.map fun g ↦ Forest.block g (content g)).foldl Forest.append Forest.empty).nodes = [] := by
  rw [Forest.foldl_append, labels, List.filter_eq_nil_iff.2, List.flatMap_nil]
  intro o ho
  obtain ⟨t, ht, ho⟩ := List.mem_flatMap.1 (show o ∈ _ from ho)
  obtain ⟨g, -, rfl⟩ := List.mem_map.1 ht
  cases List.mem_singleton.1 ho
  simp [isCase, Outline.head, NodeHead.plain]

end

theorem forest_sourced {all region : List Focus} {i : Nat} (depth : Nat) (inFunction recovering : Bool)
    (hall : Focus.Consecutive 0 all) (hplaced : Focus.Placed all i region)
    (herrors : (forest depth inFunction recovering region).errors = []) :
    ∀ o ∈ preorderAll (forest depth inFunction recovering region).nodes, o.Sourced all (Braces.of region) := by
  fun_induction forest depth inFunction recovering region generalizing i with
  | case1 => simp [Forest.empty]
  | case2 _ _ _ f rest hf =>
    rename_i ih
    rw [Braces.of_cons_plain (Braces.plain_of_not_isCode (Token.Kind.isCode_of_skipped hf))]
    exact ih hplaced.tail herrors
  | case3 | case4 => simp [Forest.append] at herrors
  | case5 depth inFunction recovering f rest _ _ hf g content ihInside =>
    rename_i ihRest
    obtain ⟨hblock, hlater⟩ := List.append_eq_nil_iff.1 herrors
    have hclosed := BraceGroup.closed_of_errors (List.append_eq_nil_iff.1 hblock).1
    have hc := hplaced.consecutive hall
    obtain ⟨hskip, hat, hinside⟩ := BraceGroup.of_front (g := g) hc rfl
    obtain ⟨-, hfits, hsettled, -⟩ := ItemDraft.front_group_fits hc hf (g := g) rfl rfl
    have hcontent : rest.take g.inside = g.content rest := by rw [BraceGroup.content, hskip, List.drop_zero]
    have ht : content = inside depth inFunction (g.content rest) := by
      rw [← hcontent]
      rfl
    rw [hcontent] at ihInside
    rw [ht] at hblock ⊢
    rw [← g.drop_size f] at ihRest hlater ⊢
    intro o ho
    rcases List.mem_append.1 (preorderAll_append .. ▸ ho) with ho | ho
    · have hplace := (hplaced.tail.drop g.skip).take g.inside
      refine (block_sourced hfits hplaced.tail hat hinside hblock (ihInside hplace) o ho).mono ?_
      exact fun q hq ↦ mem_pairs_of_take hq
    · refine (ihRest (hplaced.drop g.size) hlater o ho).mono ?_
      exact fun q hq ↦ mem_pairs_of_drop (.inl (hsettled hclosed)) hq
  | case6 depth inFunction recovering f rest hskip hclose hopen d blocks ihInside =>
    rename_i ihRest
    obtain ⟨hitem, hlater⟩ := List.append_eq_nil_iff.1 herrors
    have hblocks := block_errors (List.append_eq_nil_iff.1 hitem).2
    have hc := hplaced.consecutive hall
    have hplain : Braces.Plain f := ⟨by simpa using hopen, by simpa using hclose⟩
    have hbraced : d.Braced (f :: rest) := ItemDraft.of_braced hc hplain inFunction
    have hsound : d.Sound (fun _ ↦ True) i (rest.length + 1) :=
      ItemDraft.of_sound ⟨hc, fun _ _ ↦ trivial, Nat.zero_add _⟩ inFunction
    intro o ho
    rcases List.mem_append.1 (preorderAll_append .. ▸ ho) with ho | ho
    · rw [Forest.item, preorderAll_singleton] at ho
      rcases List.mem_cons.1 ho with rfl | ho
      · exact .inr ⟨ItemDraft.of_kind_ne _ _ _, labels_blocks ..⟩
      · obtain ⟨t, ht, ho⟩ := Forest.mem_nodes_foldl.1 ho
        obtain ⟨g, hg, rfl⟩ := List.mem_map.1 ht
        have hhigh := hsound.groups.le_high g hg
        have hmore := hsound.more_lt
        have hpos := g.inside_lt_size
        have hplace := (hplaced.tail.drop g.skip).take g.inside
        refine (block_sourced (hbraced.records.fits g hg) hplaced.tail (hsound.groups.at_skip g hg)
          (by rw [List.tail_cons]; omega) (hblocks g hg) (ihInside g hplace) o ho).mono ?_
        exact fun q hq ↦ mem_pairs_of_take hq
    · refine (ihRest (hplaced.tail.drop d.more) hlater o ho).mono ?_
      exact fun q hq ↦ mem_pairs_of_drop hbraced.settled hq

/-- What is not looked at is nested: the labels of cases side by side, taken together, and what stands
between two braces without being read as a block. -/
structure UnreadNested (all : List Focus) (b : Braces) (root : Outline) : Prop where
  cases : ∀ o ∈ root.preorder, Nested (labels all o.children)
  groups : ∀ q ∈ b.pairs, (∀ o ∈ root.preorder, o.spans q = true → o.children.isEmpty = true) →
    Nested (between all q)

section

variable {all : List Focus}

theorem nest_inside {q : Focus × Focus} {depth : Nat} {inFunction : Bool} (hall : Focus.Consecutive 0 all)
    (herrors : (inside depth inFunction (between all q)).errors = [])
    (hnodes : (inside depth inFunction (between all q)).nodes ≠ [])
    (hpairs : ∀ p ∈ (Braces.of (between all q)).pairs, Nested (between all p)) (stack : List Char) :
    nest stack (between all q) = nest stack (labels all (inside depth inFunction (between all q)).nodes) := by
  by_cases hdepth : maxDepth ≤ depth
  · rw [inside, if_pos hdepth] at hnodes
    exact absurd rfl hnodes
  · rw [inside, if_neg hdepth] at herrors ⊢
    exact nest_forest (depth + 1) inFunction false hall (between_placed all q) herrors hpairs stack

theorem between_pairs_lt {p q : Focus × Focus} (hall : Focus.Consecutive 0 all)
    (hp : p ∈ (Braces.of (between all q)).pairs) : p.2.index - p.1.index < q.2.index - q.1.index := by
  obtain ⟨⟨hopening, -⟩, hclose, -⟩ := (Braces.of_from (between all q)).pairs p.1 p.2 hp
  have hc := (between_placed all q).consecutive hall
  have hlow := hc.index_mem hopening
  have hhigh := hc.index_mem hclose
  have hlen : (between all q).length ≤ q.2.index - q.1.index - 1 := List.length_take_le ..
  omega

theorem mem_preorder_ofFoci {o : Outline} : o ∈ (ofFoci all).1.preorder ↔
    o = (ofFoci all).1 ∨ o ∈ preorderAll (forest 0 false false all).nodes := by
  rw [ofFoci, preorder, List.mem_cons]

theorem errors_of_ofFoci (h : (ofFoci all).2 = []) : (forest 0 false false all).errors = [] := by
  have hsorted : (ofFoci all).2.Perm (forest 0 false false all).errors := List.mergeSort_perm ..
  rw [h] at hsorted
  exact hsorted.nil_eq.symm

theorem sourced_of_spans {o : Outline} {q : Focus × Focus} (hall : Focus.Consecutive 0 all)
    (herrors : (forest 0 false false all).errors = []) (ho : o ∈ (ofFoci all).1.preorder)
    (hspans : o.spans q = true) :
    (∀ p ∈ (Braces.of (between all q)).pairs, p ∈ (Braces.of all).pairs) ∧
      ∃ depth inFunction, (inside depth inFunction (between all q)).errors = [] ∧
        o.children = (inside depth inFunction (between all q)).nodes := by
  simp only [spans, Bool.and_eq_true, beq_iff_eq] at hspans
  obtain ⟨⟨hkind, hstart⟩, hstop⟩ := hspans
  rcases mem_preorder_ofFoci.1 ho with rfl | ho
  · cases hkind
  · rcases forest_sourced 0 false false hall (.self all) herrors o ho with ⟨q', -, hspans', hread⟩ | ⟨hne, -⟩
    · simp only [spans, Bool.and_eq_true, beq_iff_eq] at hspans'
      obtain ⟨⟨-, hstart'⟩, hstop'⟩ := hspans'
      have hsame : between all q' = between all q := by
        rw [between, between, ← hstart', ← hstart, show q'.2.index = q.2.index by omega]
      rwa [hsame] at hread
    · exact absurd hkind hne

theorem UnreadNested.pairs (h : UnreadNested all (Braces.of all) (ofFoci all).1) (hall : Focus.Consecutive 0 all)
    (herrors : (forest 0 false false all).errors = []) :
    ∀ q ∈ (Braces.of all).pairs, Nested (between all q) := by
  intro q hq
  -- The braces of a block that is read stand around smaller pairs, which are nested already.
  induction hn : q.2.index - q.1.index using Nat.strongRecOn generalizing q with
  | ind n ih =>
    subst hn
    by_cases hread : ∀ o ∈ (ofFoci all).1.preorder, o.spans q = true → o.children.isEmpty = true
    · exact h.groups q hq hread
    · push Not at hread
      obtain ⟨o, ho, hspans, hchildren⟩ := hread
      obtain ⟨hinner, depth, inFunction, hnone, hnodes⟩ := sourced_of_spans hall herrors ho hspans
      have hpairs : ∀ p ∈ (Braces.of (between all q)).pairs, Nested (between all p) :=
        fun p hp ↦ ih _ (between_pairs_lt hall hp) p (hinner p hp) rfl
      have hlabels := h.cases o ho
      rw [hnodes] at hlabels hchildren
      rw [Nested, nest_inside hall hnone (by simpa using hchildren) hpairs]
      exact hlabels

theorem UnreadNested.of_nested (h : Nested all) (hall : Focus.Consecutive 0 all)
    (herrors : (forest 0 false false all).errors = []) :
    UnreadNested all (Braces.of all) (ofFoci all).1 := by
  have hpairs := (h.braces hall (.self all)).pairs
  refine ⟨?_, fun q hq _ ↦ hpairs q hq⟩
  intro o ho
  rcases mem_preorder_ofFoci.1 ho with rfl | ho
  · exact (nest_forest 0 false false hall (.self all) herrors hpairs []).symm.trans h
  · rcases forest_sourced 0 false false hall (.self all) herrors o ho with
      ⟨q, hq, -, hinner, depth, inFunction, hnone, hnodes⟩ | ⟨-, hlabels⟩
    · rw [hnodes]
      by_cases hempty : (inside depth inFunction (between all q)).nodes = []
      · rw [hempty]
        rfl
      · have hregion := nest_inside hall hnone hempty (fun p hp ↦ hpairs p (hinner p hp)) []
        exact hregion.symm.trans (hpairs q hq)
    · rw [hlabels]
      rfl

theorem braces_paired {i : Nat} (hc : Focus.Consecutive i all) (herrors : (forest 0 false false all).errors = []) :
    (Braces.of all).strays = [] ∧ (Braces.of all).opens = [] := by
  have hfollows := forest_follows 0 false false hc
  have hstrays := hfollows.strays
  rw [herrors] at hstrays
  refine ⟨List.map_eq_nil_iff.1 hstrays.symm, List.getLast?_eq_none_iff.1 ?_⟩
  refine Option.eq_none_iff_forall_not_mem.2 fun o ho ↦ ?_
  have hreported := hfollows.outermost o ho
  rw [herrors] at hreported
  cases hreported

/-- A file without delimiter errors has every brace paired. It is nested exactly if the labels of cases
and the brace groups that are not read are. -/
theorem nested_iff_of_no_errors (tokens : List Token) (herrors : (ofFoci (Focus.all tokens)).2 = []) :
    ((Braces.of (Focus.all tokens)).strays = [] ∧ (Braces.of (Focus.all tokens)).opens = []) ∧
      (Nested (Focus.all tokens) ↔
        UnreadNested (Focus.all tokens) (Braces.of (Focus.all tokens)) (ofFoci (Focus.all tokens)).1) := by
  have hall := Focus.all_consecutive tokens
  have hnone := errors_of_ofFoci herrors
  refine ⟨braces_paired hall hnone, fun h ↦ .of_nested h hall hnone, fun h ↦ ?_⟩
  have hroot := h.cases _ (mem_preorder_ofFoci.2 (.inl rfl))
  exact (nest_forest 0 false false hall (.self _) hnone (h.pairs hall hnone) []).trans hroot

/-- An initializer and a case, both with parentheses of their own. -/
theorem nested_initializer_case :
    ∃ tokens, tokens = Token.tokenize (Text.bytesOf
        "int f(int x) \x7b int a = \x7b (x) \x7d; switch (x) \x7b case (1): return a; \x7d \x7d") ∧
      (ofFoci (Focus.all tokens)).2 = [] ∧
      UnreadNested (Focus.all tokens) (Braces.of (Focus.all tokens)) (ofFoci (Focus.all tokens)).1 ∧
      Nested (Focus.all tokens) := by
  obtain ⟨tokens, htokens⟩ : ∃ tokens, tokens = Token.tokenize (Text.bytesOf
    "int f(int x) \x7b int a = \x7b (x) \x7d; switch (x) \x7b case (1): return a; \x7d \x7d") := ⟨_, rfl⟩
  have hread : (ofFoci (Focus.all tokens)).2 = [] ∧
      (∀ o ∈ (ofFoci (Focus.all tokens)).1.preorder, Nested (labels (Focus.all tokens) o.children)) ∧
      ∀ q ∈ (Braces.of (Focus.all tokens)).pairs,
        (∀ o ∈ (ofFoci (Focus.all tokens)).1.preorder, o.spans q = true → o.children.isEmpty = true) →
          Nested (between (Focus.all tokens) q) := by
    subst htokens
    decide +kernel
  obtain ⟨herrors, hcases, hgroups⟩ := hread
  have hunread := UnreadNested.mk hcases hgroups
  exact ⟨tokens, htokens, herrors, hunread, (nested_iff_of_no_errors tokens herrors).2.2 hunread⟩

/-- In an initializer and in the label of a case, a parenthesis that is never closed is no error. -/
theorem no_errors_not_nested :
    (∃ tokens, tokens = Token.tokenize (Text.bytesOf "int a = \x7b ( \x7d;") ∧
      (ofFoci (Focus.all tokens)).2 = [] ∧ ¬Nested (Focus.all tokens)) ∧
    ∃ tokens, tokens = Token.tokenize
        (Text.bytesOf "int f(int x) \x7b switch (x) \x7b case (1: return 0; \x7d \x7d") ∧
      (ofFoci (Focus.all tokens)).2 = [] ∧ ¬Nested (Focus.all tokens) := by
  refine ⟨⟨_, rfl, ?_⟩, ⟨_, rfl, ?_⟩⟩
  · decide +kernel
  · decide +kernel

end

end Outline

end CodeStyle
