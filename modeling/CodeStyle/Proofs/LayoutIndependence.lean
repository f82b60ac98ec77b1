import CodeStyle.Proofs.LineCuts
import CodeStyle.Proofs.TreeLayout

/-!
The structure of a file does not depend on its layout. Files without comments that differ in nothing but
blanks and line breaks have the same tree and the same delimiter errors, over the tokens that correspond.
-/

namespace CodeStyle

/-- The `i`-th token of one file and the `j`-th of another are the same but for the layout. -/
structure Corresponds (s t : List Token) (i j : Nat) : Prop where
  rank : rank s i = rank t j
  tokens : ∃ x ∈ s[i]?, ∃ y ∈ t[j]?, x.isSolid = true ∧ y.isSolid = true ∧ x.kind = y.kind ∧ x.text = y.text

/-- Two nodes that are the same but for the layout. -/
structure SameNode (s t : List Token) (v w : Visit) : Prop where
  id : v.tree.id = w.tree.id
  kind : v.tree.kind = w.tree.kind
  recovered : v.tree.head.recovered = w.tree.head.recovered
  directive : v.tree.head.directive = w.tree.head.directive
  parent : v.parent.map Tree.id = w.parent.map Tree.id
  children : v.tree.children.map Tree.id = w.tree.children.map Tree.id
  name : Option.Rel (Corresponds s t) v.tree.head.name w.tree.head.name
  tokens : ∀ i j, Corresponds s t i j →
    (v.tree.start ≤ i ∧ i < v.tree.stop ↔ w.tree.start ≤ j ∧ j < w.tree.stop)

/-- The same error at tokens that are the same but for the layout. -/
structure SameError (s t : List Token) (e e' : DelimiterError) : Prop where
  imbalance : e.imbalance = e'.imbalance
  span : ∃ i j, Corresponds s t i j ∧ (s[i]?.map Token.span = some e.span) ∧ t[j]?.map Token.span = some e'.span

/-- Two files with the same structure: their solid tokens correspond one to one, and so do the nodes of
their trees and their delimiter errors, each in order. -/
structure SameStructure (s t : List Token) : Prop where
  left : ∀ i, (∃ x ∈ s[i]?, x.isSolid = true) → ∃! j, Corresponds s t i j
  right : ∀ j, (∃ y ∈ t[j]?, y.isSolid = true) → ∃! i, Corresponds s t i j
  nodes : List.Forall₂ (SameNode s t) ((Tree.ofOutline (Outline.ofFoci (Focus.all s)).1).visits [])
    ((Tree.ofOutline (Outline.ofFoci (Focus.all t)).1).visits [])
  errors : List.Forall₂ (SameError s t) (Outline.ofFoci (Focus.all s)).2 (Outline.ofFoci (Focus.all t)).2

namespace Focus

variable {tokens : List Token} {f g : Focus}

theorem getElem?_index (h : f ∈ all tokens) : tokens[f.index]? = some f.token := by
  have hlen : f.before.reverse.length = f.index := by
    rw [List.length_reverse, length_before_fromIndex h rfl]
  conv_lhs => rw [mem_all h, ← hlen]
  simp

theorem exists_of_getElem? {i : Nat} {t : Token} (h : tokens[i]? = some t) :
    ∃ f ∈ all tokens, f.index = i ∧ f.token = t := by
  rw [← map_token_all tokens, List.getElem?_map] at h
  obtain ⟨f, hf, rfl⟩ := Option.map_eq_some_iff.1 h
  have hindex := all_consecutive tokens i f hf
  rw [Nat.zero_add] at hindex
  exact ⟨f, List.mem_of_getElem? hf, hindex, rfl⟩

end Focus

namespace Token

theorem tokenize_pairwise (src : List UInt8) :
    (tokenize src).Pairwise fun s t ↦ s.span.startByte < t.span.startByte := by
  have hchain : ((tokenize src).map fun t ↦ t.span.startByte).IsChain (· < ·) := by
    rw [List.isChain_map]
    refine (place_isChain 0 _ _).imp_of_mem_imp fun s t hs _ hst ↦ ?_
    obtain ⟨before, after, -, hne, -, -, hspan⟩ := mem_tokenize hs
    have hpos := List.length_pos_iff.2 hne
    rw [← hst, hspan]
    simp only [Span.between]
    omega
  exact List.pairwise_map.1 (List.isChain_iff_pairwise.1 hchain)

variable {src : List UInt8} {f g : Focus}

/-- Tokens start in the order of their numbers. -/
theorem startByte_le_iff (hf : f ∈ Focus.all (tokenize src)) (hg : g ∈ Focus.all (tokenize src)) :
    f.token.span.startByte ≤ g.token.span.startByte ↔ f.index ≤ g.index := by
  have hlt {f g : Focus} (hf : f ∈ Focus.all (tokenize src)) (hg : g ∈ Focus.all (tokenize src))
      (h : f.index < g.index) : f.token.span.startByte < g.token.span.startByte := by
    obtain ⟨hi, hfi⟩ := List.getElem?_eq_some_iff.1 (Focus.getElem?_index hf)
    obtain ⟨hj, hgj⟩ := List.getElem?_eq_some_iff.1 (Focus.getElem?_index hg)
    rw [← hfi, ← hgj]
    exact List.pairwise_iff_getElem.1 (tokenize_pairwise src) _ _ hi hj h
  constructor
  · intro hle
    by_contra hgt
    have := hlt hg hf (Nat.lt_of_not_le hgt)
    omega
  · intro hle
    rcases Nat.lt_or_eq_of_le hle with h | h
    · exact Nat.le_of_lt (hlt hf hg h)
    · have htoken := Focus.getElem?_index hf
      rw [h, Focus.getElem?_index hg, Option.some.injEq] at htoken
      rw [htoken]

end Token

theorem forall₂_of_map_eq {α β γ : Type} {R : α → β → Prop} {f : α → γ} {g : β → γ} {xs : List α} {ys : List β}
    (h : xs.map f = ys.map g) (hR : ∀ x ∈ xs, ∀ y ∈ ys, f x = g y → R x y) : List.Forall₂ R xs ys := by
  induction xs generalizing ys with
  | nil =>
    obtain rfl := List.map_eq_nil_iff.1 h.symm
    exact .nil
  | cons x xs ih =>
    obtain ⟨y, ys, rfl, hy, hys⟩ := List.map_eq_cons_iff.1 h.symm
    refine .cons (hR x (by simp) y (by simp) hy.symm) (ih hys.symm fun x hx y hy ↦ ?_)
    exact hR x (by simp [hx]) y (by simp [hy])

namespace Condensing

/-- Two files that are the same when condensed. -/
structure Meets (c d : Condensing) : Prop where
  left : ∀ t ∈ c.tokens, t.isComment = false
  right : ∀ t ∈ d.tokens, t.isComment = false
  solids : c.solids c.tokens = d.solids d.tokens

namespace Meets

variable {c d : Condensing} {f g : Focus}

theorem symm (h : Meets c d) : Meets d c := ⟨h.right, h.left, h.solids.symm⟩

theorem visits (h : Meets c d) :
    ((Tree.ofOutline (Outline.ofFoci (Focus.all c.tokens)).1).visits []).map c.visit =
      ((Tree.ofOutline (Outline.ofFoci (Focus.all d.tokens)).1).visits []).map d.visit := by
  have hvisits := visits_tree (c := c) [] (Tree.ofOutline (Outline.ofFoci (Focus.all c.tokens)).1)
  have hvisits' := visits_tree (c := d) [] (Tree.ofOutline (Outline.ofFoci (Focus.all d.tokens)).1)
  rw [List.map_nil, tree_ofOutline, outline_ofFoci h.left, h.solids] at hvisits
  rw [List.map_nil, tree_ofOutline, outline_ofFoci h.right] at hvisits'
  exact hvisits.symm.trans hvisits'

theorem errors (h : Meets c d) :
    (Outline.forest 0 false false (Focus.all c.tokens)).errors.map c.error =
      (Outline.forest 0 false false (Focus.all d.tokens)).errors.map d.error := by
  have hforest := forest_all h.left
  rw [h.solids, ← forest_all h.right] at hforest
  exact congrArg Forest.errors hforest

/-- A solid token of one file stands in the other as well. -/
theorem twin (h : Meets c d) (hf : f ∈ Focus.all c.tokens) (hs : f.isSolid = true) :
    ∃ g ∈ Focus.all d.tokens, g.isSolid = true ∧ c.focus f = d.focus g := by
  have hmem : c.focus f ∈ c.foci (Focus.all c.tokens) := List.mem_map_of_mem (List.mem_filter.2 ⟨hf, hs⟩)
  rw [← all_solids, h.solids, all_solids] at hmem
  obtain ⟨g, hg, he⟩ := List.mem_map.1 hmem
  obtain ⟨hg, ht⟩ := List.mem_filter.1 hg
  exact ⟨g, hg, ht, he.symm⟩

theorem corresponds (hf : f ∈ Focus.all c.tokens) (hs : f.isSolid = true) (hg : g ∈ Focus.all d.tokens)
    (ht : g.isSolid = true) (he : c.focus f = d.focus g) : Corresponds c.tokens d.tokens f.index g.index := by
  have htoken : c.token f.token = d.token g.token := congrArg Focus.token he
  refine ⟨congrArg Focus.index he, f.token, Focus.getElem?_index hf, g.token, Focus.getElem?_index hg, hs, ht, ?_, ?_⟩
  · have hkind := congrArg Token.kind htoken
    rwa [token_kind, token_kind] at hkind
  · have htext := congrArg Token.text htoken
    rwa [token_text, token_text] at htext

/-- Nodes over the same places of the condensed file hold the same tokens. -/
theorem covers_iff {i j low low' high high' : Nat} (hij : Corresponds c.tokens d.tokens i j)
    (hlow : c.index low = d.index low') (hhigh : c.index high = d.index high') :
    low ≤ i ∧ i < high ↔ low' ≤ j ∧ j < high' := by
  obtain ⟨hrank, x, hx, y, hy, hsx, hsy, -⟩ := hij
  obtain ⟨f, hf, rfl, rfl⟩ := Focus.exists_of_getElem? hx
  obtain ⟨g, hg, rfl, rfl⟩ := Focus.exists_of_getElem? hy
  have hlow : rank c.tokens low = rank d.tokens low' := hlow
  have hhigh : rank c.tokens high = rank d.tokens high' := hhigh
  rw [← Nat.not_le, ← Nat.not_le, ← rank_le_iff hf hsx, ← rank_le_iff hf hsx, ← rank_le_iff hg hsy,
    ← rank_le_iff hg hsy, hrank, hlow, hhigh]

/-- A name of a node of a file is that of a solid token. -/
theorem name_mem {tokens : List Token} {t : Tree}
    (ht : t ∈ (Tree.ofOutline (Outline.ofFoci (Focus.all tokens)).1).preorder) {i : Nat} (hi : i ∈ t.head.name) :
    ∃ f ∈ Focus.all tokens, f.isSolid = true ∧ f.index = i := by
  have hne : t ≠ Tree.ofOutline (Outline.ofFoci (Focus.all tokens)).1 := by
    rintro rfl
    cases hi
  obtain ⟨f, hf, rfl, hid⟩ := (Tree.range_node ht hne).2.2 i hi
  refine ⟨f, hf, ?_, rfl⟩
  simp only [Token.isIdentifier, beq_iff_eq] at hid
  simp [Focus.isSolid, Token.isSolid, Token.isTrivia, hid, Token.Kind.isTrivia]

theorem corresponds_of_index (h : Meets c d) (hf : f ∈ Focus.all c.tokens) (hs : f.isSolid = true)
    (hg : g ∈ Focus.all d.tokens) (ht : g.isSolid = true) (he : c.index f.index = d.index g.index) :
    Corresponds c.tokens d.tokens f.index g.index := by
  obtain ⟨g', hg', ht', he'⟩ := h.twin hf hs
  have hindex : d.index g'.index = d.index g.index := (congrArg Focus.index he').symm.trans he
  rw [← (rank_eq_iff hg' ht' hg ht).1 hindex]
  exact corresponds hf hs hg' ht' he'

theorem sameNode (h : Meets c d) {v w : Visit}
    (hv : v ∈ (Tree.ofOutline (Outline.ofFoci (Focus.all c.tokens)).1).visits [])
    (hw : w ∈ (Tree.ofOutline (Outline.ofFoci (Focus.all d.tokens)).1).visits [])
    (he : c.visit v = d.visit w) : SameNode c.tokens d.tokens v w := by
  have htree : c.tree v.tree = d.tree w.tree := congrArg Visit.tree he
  have hhead : c.head v.tree.head = d.head w.tree.head := by rw [← tree_head, ← tree_head, htree]
  have hfield {α : Type} (field : NodeHead → α) : field (c.head v.tree.head) = field (d.head w.tree.head) :=
    congrArg field hhead
  have hids (ts : List Tree) (us : List Tree) (hts : ts.map c.tree = us.map d.tree) :
      ts.map Tree.id = us.map Tree.id := by
    have hmap := congrArg (List.map Tree.id) hts
    simpa only [List.map_map, Function.comp_def, tree_id] using hmap
  constructor
  case id => rw [← tree_id (c := c), htree, tree_id]
  case kind => exact hfield NodeHead.kind
  case recovered => exact hfield NodeHead.recovered
  case directive => exact hfield NodeHead.directive
  case parent =>
    have habove := hids _ _ (congrArg Visit.above he)
    rw [Visit.parent, Visit.parent, ← List.head?_map, ← List.head?_map, habove]
  case children =>
    apply hids
    rw [← tree_children, ← tree_children, htree]
  case name =>
    have hname : v.tree.head.name.map c.index = w.tree.head.name.map d.index := hfield NodeHead.name
    cases hn : v.tree.head.name with
    | none =>
      rw [hn, Option.map_none] at hname
      rw [Option.map_eq_none_iff.1 hname.symm]
      exact .none
    | some i =>
      rw [hn, Option.map_some] at hname
      obtain ⟨j, hj, hij⟩ := Option.map_eq_some_iff.1 hname.symm
      obtain ⟨f, hf, hs, rfl⟩ := name_mem (List.mem_map_of_mem hv) hn
      obtain ⟨g, hg, ht, rfl⟩ := name_mem (List.mem_map_of_mem hw) hj
      rw [hj]
      exact .some (h.corresponds_of_index hf hs hg ht hij.symm)
  case tokens =>
    intro i j hij
    exact covers_iff hij (hfield NodeHead.start) (hfield NodeHead.stop)

end Meets

/-- The errors of a file without comments are at solid tokens. -/
theorem error_mem {tokens : List Token} (hcomment : ∀ t ∈ tokens, t.isComment = false) {e : DelimiterError}
    (he : e ∈ (Outline.forest 0 false false (Focus.all tokens)).errors) :
    ∃ f ∈ Focus.all tokens, f.isSolid = true ∧ e.span = f.token.span := by
  -- The errors stay the same when the file is condensed and its spans are kept.
  let c : Condensing := ⟨tokens, fun s ↦ s⟩
  have herrors : (Outline.forest 0 false false (Focus.all tokens)).errors.map c.error =
      (Outline.forest 0 false false (Focus.all (c.solids tokens))).errors :=
    congrArg Forest.errors (forest_all (c := c) hcomment)
  have hmem : e ∈ (Outline.forest 0 false false (Focus.all (c.solids tokens))).errors := by
    rw [← herrors]
    exact List.mem_map.2 ⟨e, he, rfl⟩
  have hsound := Outline.forest_sound (Q := (· ∈ Focus.all (c.solids tokens))) 0 false false
    (Focus.all_consecutive _) fun f hf ↦ hf
  obtain ⟨q, hq, hspan⟩ := hsound.errors e hmem
  have hq : q ∈ c.foci (Focus.all c.tokens) := by
    rw [← all_solids]
    exact hq
  obtain ⟨f, hf, rfl⟩ := List.mem_map.1 hq
  obtain ⟨hf, hs⟩ := List.mem_filter.1 hf
  exact ⟨f, hf, hs, hspan⟩

/-- The spans of the solid tokens of a file, in order. -/
def solidSpans (tokens : List Token) : List Span := (tokens.filter Token.isSolid).map Token.span

/-- Condensing a file so that the span of each token that stays is its new number. -/
def numbered (tokens : List Token) : Condensing where
  tokens := tokens
  span s := ⟨(solidSpans tokens).idxOf s, (solidSpans tokens).idxOf s, 0, 0, 0, 0⟩

theorem solidSpans_nodup (src : List UInt8) : (solidSpans (Token.tokenize src)).Nodup := by
  refine List.Pairwise.map _ ?_ ((Token.tokenize_pairwise src).sublist List.filter_sublist)
  intro x y hlt heq
  rw [heq] at hlt
  exact Nat.lt_irrefl _ hlt

theorem getElem?_solids {tokens : List Token} {f : Focus} (hf : f ∈ Focus.all tokens) (hs : f.isSolid = true) :
    (tokens.filter Token.isSolid)[rank tokens f.index]? = some f.token := by
  obtain ⟨hlt, hat⟩ := List.getElem?_eq_some_iff.1 (Focus.getElem?_index hf)
  have hsolid : f.token.isSolid = true := hs
  rw [← List.head?_drop, rank, ← filter_drop, List.drop_eq_getElem_cons hlt, hat,
    List.filter_cons_of_pos hsolid, List.head?_cons]

theorem numbered_span {src : List UInt8} {f : Focus} (hf : f ∈ Focus.all (Token.tokenize src))
    (hs : f.isSolid = true) :
    (solidSpans (Token.tokenize src)).idxOf f.token.span = rank (Token.tokenize src) f.index := by
  have hget : (solidSpans (Token.tokenize src))[rank (Token.tokenize src) f.index]? = some f.token.span := by
    rw [solidSpans, List.getElem?_map, getElem?_solids hf hs]
    rfl
  obtain ⟨hlt, hat⟩ := List.getElem?_eq_some_iff.1 hget
  rw [← hat]
  exact (solidSpans_nodup src).idxOf_getElem _ hlt

/-- The tokens that stay depend on kinds and texts only. -/
theorem solids_numbered (src : List UInt8) :
    (numbered (Token.tokenize src)).solids (Token.tokenize src) =
      (((Token.tokenize src).filter Token.isSolid).map fun t ↦ (t.kind, t.text)).mapIdx fun k q ↦
        ⟨q.1, [], q.2, ⟨k, k, 0, 0, 0, 0⟩⟩ := by
  have hnodup := solidSpans_nodup src
  refine List.ext_getElem (by simp [solids]) fun k hk _ ↦ ?_
  have hlt : k < (solidSpans (Token.tokenize src)).length := by simpa [solids, solidSpans] using hk
  have hindex := hnodup.idxOf_getElem k hlt
  simp only [solidSpans, List.getElem_map] at hindex
  simp [solids, numbered, token, solidSpans, hindex]

/-- Errors are sorted alike by their spans and by the new numbers of their tokens. -/
theorem map_error_mergeSort {src : List UInt8} (hcomment : ∀ t ∈ Token.tokenize src, t.isComment = false) :
    (Outline.ofFoci (Focus.all (Token.tokenize src))).2.map (numbered (Token.tokenize src)).error =
      ((Outline.forest 0 false false (Focus.all (Token.tokenize src))).errors.map
        (numbered (Token.tokenize src)).error).mergeSort fun a b ↦ a.span.startByte ≤ b.span.startByte := by
  refine List.map_mergeSort fun a ha b hb ↦ ?_
  obtain ⟨f, hf, hs, hspan⟩ := error_mem hcomment ha
  obtain ⟨g, hg, ht, hspan'⟩ := error_mem hcomment hb
  have hle : a.span.startByte ≤ b.span.startByte ↔
      (solidSpans (Token.tokenize src)).idxOf a.span ≤ (solidSpans (Token.tokenize src)).idxOf b.span := by
    rw [hspan, hspan', numbered_span hf hs, numbered_span hg ht, rank_le_iff hg ht, Token.startByte_le_iff hf hg]
  exact decide_eq_decide.2 hle

end Condensing

open Condensing

theorem Corresponds.symm {s t : List Token} {i j : Nat} (h : Corresponds s t i j) : Corresponds t s j i := by
  obtain ⟨x, hx, y, hy, hsx, hsy, hkind, htext⟩ := h.tokens
  exact ⟨h.rank.symm, y, hy, x, hx, hsy, hsx, hkind.symm, htext.symm⟩

theorem Corresponds.unique {s t : List Token} {i j k : Nat} (hj : Corresponds s t i j)
    (hk : Corresponds s t i k) : j = k := by
  obtain ⟨-, -, y, hy, -, hsy, -⟩ := hj.tokens
  obtain ⟨-, -, z, hz, -, hsz, -⟩ := hk.tokens
  obtain ⟨f, hf, rfl, rfl⟩ := Focus.exists_of_getElem? hy
  obtain ⟨g, hg, rfl, rfl⟩ := Focus.exists_of_getElem? hz
  exact (rank_eq_iff hf hsy hg hsz).1 (hj.rank.symm.trans hk.rank)

section

variable {a b : List UInt8}

/-- Errors that condense to the same are the same but for the layout. -/
theorem sameErrors (h : Meets (numbered (Token.tokenize a)) (numbered (Token.tokenize b))) :
    List.Forall₂ (SameError (Token.tokenize a) (Token.tokenize b))
      (Outline.ofFoci (Focus.all (Token.tokenize a))).2 (Outline.ofFoci (Focus.all (Token.tokenize b))).2 := by
  have ha : ∀ t ∈ Token.tokenize a, t.isComment = false := h.left
  have hb : ∀ t ∈ Token.tokenize b, t.isComment = false := h.right
  have hsorted := (map_error_mergeSort ha).trans
    ((congrArg (List.mergeSort · _) h.errors).trans (map_error_mergeSort hb).symm)
  apply forall₂_of_map_eq hsorted
  intro e he e' he' heq
  obtain ⟨f, hf, hs, hspan⟩ := error_mem ha (List.mem_mergeSort.1 he)
  obtain ⟨g, hg, ht, hspan'⟩ := error_mem hb (List.mem_mergeSort.1 he')
  have hindex : rank (Token.tokenize a) f.index = rank (Token.tokenize b) g.index := by
    rw [← numbered_span hf hs, ← numbered_span hg ht, ← hspan, ← hspan']
    exact congrArg Span.startByte (DelimiterError.mk.inj heq).2
  have himbalance : e.imbalance = e'.imbalance := (DelimiterError.mk.inj heq).1
  refine ⟨himbalance, f.index, g.index, h.corresponds_of_index hf hs hg ht hindex, ?_, ?_⟩
  · rw [Focus.getElem?_index hf, hspan]
    rfl
  · rw [Focus.getElem?_index hg, hspan']
    rfl

theorem existsUnique_corresponds {s t : List Token} (h : Meets (numbered s) (numbered t)) (i : Nat)
    (hi : ∃ x ∈ s[i]?, x.isSolid = true) : ∃! j, Corresponds s t i j := by
  obtain ⟨x, hx, hs⟩ := hi
  obtain ⟨f, hf, rfl, rfl⟩ := Focus.exists_of_getElem? hx
  obtain ⟨g, hg, ht, he⟩ := h.twin hf hs
  refine ⟨g.index, Meets.corresponds hf hs hg ht he, fun j hj ↦ ?_⟩
  exact hj.unique (Meets.corresponds hf hs hg ht he)

end

/-- Files without comments that are equal without their blanks and line breaks have the same structure. -/
theorem sameStructure_of_layout (a b : List UInt8)
    (ha : ∀ t ∈ Token.tokenize a, t.isComment = false) (hb : ∀ t ∈ Token.tokenize b, t.isComment = false)
    (h : ((Token.tokenize a).filter Token.isSolid).map (fun t ↦ (t.kind, t.text)) =
      ((Token.tokenize b).filter Token.isSolid).map (fun t ↦ (t.kind, t.text))) :
    SameStructure (Token.tokenize a) (Token.tokenize b) := by
  have hmeets : Meets (numbered (Token.tokenize a)) (numbered (Token.tokenize b)) := by
    refine ⟨ha, hb, ?_⟩
    exact (solids_numbered a).trans ((congrArg _ h).trans (solids_numbered b).symm)
  constructor
  case left => exact existsUnique_corresponds hmeets
  case right =>
    intro j hj
    obtain ⟨i, hij, huniq⟩ := existsUnique_corresponds hmeets.symm j hj
    exact ⟨i, hij.symm, fun k hk ↦ huniq k hk.symm⟩
  case nodes => exact forall₂_of_map_eq hmeets.visits fun v hv w hw he ↦ hmeets.sameNode hv hw he
  case errors => exact sameErrors hmeets

/-- A body of a `struct`, a label in a function with an unclosed parenthesis under a conditional, and a
stray brace before one that is not closed, in two layouts. -/
theorem sameStructure_of_layout_unbalanced :
    ∃ a b, a = Text.bytesOf "struct s\x7bint a;\x7d;\n#if A\nint f()\x7bL:g(x;\x7d\n#endif\n\x7d\x7b" ∧
      b = Text.bytesOf ("struct  s\n\x7b\n int a ;\n\x7d\n;\n\n#if A\n\tint f ( )\n\x7b L : g ( x ;\n\x7d\n\n" ++
        "#endif\n\x7d \x7b\n\n") ∧
      (∀ t ∈ Token.tokenize a, t.isComment = false) ∧ (∀ t ∈ Token.tokenize b, t.isComment = false) ∧
      ((Token.tokenize a).filter Token.isSolid).map (fun t ↦ (t.kind, t.text)) =
        ((Token.tokenize b).filter Token.isSolid).map (fun t ↦ (t.kind, t.text)) ∧
      SameStructure (Token.tokenize a) (Token.tokenize b) := by
  refine ⟨_, _, rfl, rfl, ?ha, ?hb, ?h, sameStructure_of_layout _ _ ?ha ?hb ?h⟩
  case ha => decide +kernel
  case hb => decide +kernel
  case h => decide +kernel

end CodeStyle
