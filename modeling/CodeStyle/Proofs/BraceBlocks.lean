import CodeStyle.Proofs.ItemBraces
import CodeStyle.Proofs.TreeShape

/-!
Blocks follow braces. Whatever the readers do with the items around them, the blocks of a file are pairs
of its braces, a brace that nothing opened is reported where it stands, and so is the outermost brace
that nothing closes.
-/

namespace CodeStyle

theorem Token.Kind.isCode_of_skipped {t : Token} (h : (t.isTrivia || t.kind.isInvalid) = true) :
    t.kind.isCode = false := by
  cases hk : t.kind <;> simp_all [Token.isTrivia, isTrivia, isInvalid, isCode]

namespace Outline

def head : Outline → NodeHead
  | node head _ => head

mutual

/-- A node and all nodes below it. -/
def preorder : Outline → List Outline
  | node head children => node head children :: preorderAll children

def preorderAll : List Outline → List Outline
  | [] => []
  | o :: os => o.preorder ++ preorderAll os

end

@[simp] theorem preorderAll_nil : preorderAll [] = [] := rfl

theorem preorderAll_append (os us : List Outline) : preorderAll (os ++ us) = preorderAll os ++ preorderAll us := by
  induction os with
  | nil => rfl
  | cons o os ih => rw [List.cons_append, preorderAll, preorderAll, ih, List.append_assoc]

@[simp] theorem preorderAll_singleton (head : NodeHead) (children : List Outline) :
    preorderAll [node head children] = node head children :: preorderAll children := by
  rw [preorderAll, preorder, preorderAll, List.append_nil]

theorem mem_preorderAll_flatMap {α : Type} {o : Outline} {xs : List α} {f : α → List Outline} :
    o ∈ preorderAll (xs.flatMap f) ↔ ∃ x ∈ xs, o ∈ preorderAll (f x) := by
  induction xs with
  | nil => simp
  | cons x xs ih => simp [preorderAll_append, ih]

theorem Within.of_heads {P R : NodeHead → Prop} {low high : Nat} {os : List Outline}
    (h : Within P low high os) (hR : ∀ o ∈ preorderAll os, R o.head) : Within R low high os := by
  induction h with
  | nil hle => exact .nil hle
  | cons hlow hne _ _ _ ihInner ihRest =>
    rw [preorderAll, preorder, List.cons_append, List.forall_mem_cons, List.forall_mem_append] at hR
    exact .cons hlow hne hR.1 (ihInner hR.2.1) (ihRest hR.2.2)

end Outline

/-- A block goes from a brace to just behind the one that closes it, or to `stop` if there is none. -/
def NodeHead.Matched (b : Braces) (stop : Nat) (h : NodeHead) : Prop :=
  h.kind = .braceBlock → h.recovered = false →
    (∃ opening close, (opening, close) ∈ b.pairs ∧ h.start = opening.index ∧ h.stop = close.index + 1) ∨
      ∃ opening ∈ b.opens, h.start = opening.index ∧ h.stop = stop

/-- The spans of the errors about closing braces that nothing opened. -/
def DelimiterError.strays (errors : List DelimiterError) : List Span :=
  (errors.filter (·.imbalance == .unmatchedClose '\x7d')).map DelimiterError.span

theorem DelimiterError.strays_append (es fs : List DelimiterError) :
    strays (es ++ fs) = strays es ++ strays fs := by
  simp [strays]

theorem DelimiterError.strays_eq_nil_iff {es : List DelimiterError} :
    strays es = [] ↔ ∀ e ∈ es, e.imbalance ≠ .unmatchedClose '\x7d' := by
  simp [strays, List.filter_eq_nil_iff]

theorem BraceGroup.strays_errors (g : BraceGroup) : DelimiterError.strays g.errors = [] := by
  unfold BraceGroup.errors
  split <;> rfl

theorem BraceGroup.Fit.at_skip {start low high : Nat} {gs : List BraceGroup} (h : Fit start low high gs) :
    ∀ g ∈ gs, g.opening.index = start + g.skip := by
  induction h with
  | nil => simp
  | cons _ hat _ ih => exact List.forall_mem_cons.2 ⟨hat, ih⟩

namespace Forest

open Outline (preorderAll)
open DelimiterError (strays)

/-- Nodes and errors that agree with the braces of a region that ends at `stop`. -/
structure Agrees (b : Braces) (stop : Nat) (t : Forest) : Prop where
  blocks : ∀ o ∈ preorderAll t.nodes, o.head.Matched b stop
  unclosed : ∀ e ∈ t.errors, e.imbalance = .unclosedOpen '\x7b' → ∃ o ∈ b.opens, e.span = o.token.span

/-- And they are all there. -/
structure Follows (b : Braces) (stop : Nat) (t : Forest) : Prop extends Agrees b stop t where
  strays : strays t.errors = b.strays.map (·.token.span)
  outermost : ∀ o ∈ b.opens.getLast?, DelimiterError.mk (.unclosedOpen '\x7b') o.token.span ∈ t.errors

variable {b c : Braces} {stop stop' : Nat} {t u : Forest} {g : BraceGroup} {f : Focus} {rest : List Focus}

theorem Agrees.mono (h : t.Agrees b stop) (hpairs : ∀ q ∈ b.pairs, q ∈ c.pairs)
    (hopens : ∀ o ∈ b.opens, o ∈ c.opens ∧ stop = stop') : t.Agrees c stop' := by
  refine ⟨fun o ho hkind hrec ↦ ?_, fun e he hon ↦ ?_⟩
  · rcases h.blocks o ho hkind hrec with ⟨opening, close, hpair, hrange⟩ | ⟨opening, hopening, hstart, hstop⟩
    · exact .inl ⟨opening, close, hpairs _ hpair, hrange⟩
    · obtain ⟨hmem, rfl⟩ := hopens opening hopening
      exact .inr ⟨opening, hmem, hstart, hstop⟩
  · obtain ⟨o, ho, hspan⟩ := h.unclosed e he hon
    exact ⟨o, (hopens o ho).1, hspan⟩

theorem empty_agrees : empty.Agrees b stop :=
  ⟨by simp [empty], by simp [empty]⟩

theorem Agrees.append (ht : t.Agrees b stop) (hu : u.Agrees b stop) : (t.append u).Agrees b stop := by
  refine ⟨fun o ho ↦ ?_, fun e he ↦ ?_⟩
  · rw [Forest.append, Outline.preorderAll_append] at ho
    rcases List.mem_append.1 ho with ho | ho
    · exact ht.blocks o ho
    · exact hu.blocks o ho
  · rcases List.mem_append.1 he with he | he
    · exact ht.unclosed e he
    · exact hu.unclosed e he

@[simp] theorem append_empty (t : Forest) : t.append empty = t := by simp [append, empty]

theorem empty_follows (stop : Nat) : empty.Follows .none stop :=
  { empty_agrees with strays := rfl, outermost := by simp [Braces.none] }

/-- What comes behind tokens that leave nothing open is judged by itself. -/
theorem Follows.append (ht : t.Follows b stop') (hb : b.opens = []) (hu : u.Follows c stop) :
    (t.append u).Follows (b.extend c) stop := by
  have hleft : t.Agrees (b.extend c) stop :=
    ht.toAgrees.mono (fun q hq ↦ List.mem_append_left _ hq) (by simp [hb])
  have hright : u.Agrees (b.extend c) stop :=
    hu.toAgrees.mono (fun q hq ↦ List.mem_append_right _ hq) fun o ho ↦ ⟨List.mem_append_left _ ho, rfl⟩
  refine { hleft.append hright with strays := ?_, outermost := ?_ }
  · simp only [Forest.append, DelimiterError.strays_append, ht.strays, hu.strays, Braces.extend, List.map_append]
  · intro o ho
    simp only [Braces.extend, hb, List.append_nil] at ho
    exact List.mem_append_right _ (hu.outermost o ho)

theorem stray_follows (f : Focus) (stop : Nat) :
    Follows ⟨[], [f], []⟩ stop ⟨[], [⟨.unmatchedClose '\x7d', f.token.span⟩]⟩ :=
  { blocks := by simp
    unclosed := by simp
    strays := rfl
    outermost := by simp }

theorem recovered_follows (h : t.Follows b stop) : (recovered f rest t).Follows b stop := by
  refine { h with blocks := fun o ho ↦ ?_ }
  rw [recovered, Outline.preorderAll_singleton] at ho
  rcases List.mem_cons.1 ho with rfl | ho
  · exact fun _ hrec ↦ absurd hrec (by simp [Outline.head])
  · exact h.blocks o ho

theorem block_agrees (hg : g.Fits rest b) (ht : t = empty ∨ t.Follows (Braces.of (g.content rest)) stop')
    (hstop : g.closed = false → stop' = stop ∧ g.opening.index + g.size = stop) :
    (block g t).Agrees b stop ∧ strays (block g t).errors = [] := by
  have hinner : t.Agrees b stop := by
    rcases ht with rfl | ht
    · exact empty_agrees
    · refine ht.toAgrees.mono hg.pairs fun o ho ↦ ?_
      cases hclosed : g.closed with
      | true => simp [(hg.closed hclosed).1] at ho
      | false =>
        rw [(hg.unclosed hclosed).1]
        exact ⟨List.mem_append_left _ ho, (hstop hclosed).1⟩
  refine ⟨⟨fun o ho ↦ ?_, fun e he hon ↦ ?_⟩, ?_⟩
  · rw [block, Outline.preorderAll_singleton] at ho
    rcases List.mem_cons.1 ho with rfl | ho
    · intro _ _
      cases hclosed : g.closed with
      | true =>
        obtain ⟨-, close, hpair, hindex⟩ := hg.closed hclosed
        exact .inl ⟨g.opening, close, hpair, rfl, hindex.symm⟩
      | false =>
        refine .inr ⟨g.opening, ?_, rfl, (hstop hclosed).2⟩
        rw [(hg.unclosed hclosed).1]
        simp
    · exact hinner.blocks o ho
  · rcases List.mem_append.1 he with he | he
    · unfold BraceGroup.errors at he
      split at he
      · cases he
      · rename_i hclosed
        cases List.mem_singleton.1 he
        refine ⟨g.opening, ?_, rfl⟩
        rw [(hg.unclosed (by simpa using hclosed)).1]
        simp
    · exact hinner.unclosed e he hon
  · rw [block, DelimiterError.strays_append, BraceGroup.strays_errors, List.nil_append]
    rcases ht with rfl | ht
    · rfl
    · rw [ht.strays, hg.strays, List.map_nil]

theorem block_follows (hg : g.Fits rest b) (hstrays : b.strays = [])
    (hclosed : g.closed = true → b.opens = [])
    (ht : t = empty ∨ t.Follows (Braces.of (g.content rest)) stop')
    (hstop : g.closed = false → stop' = stop ∧ g.opening.index + g.size = stop) :
    (block g t).Follows b stop := by
  obtain ⟨hagrees, hnone⟩ := block_agrees hg ht hstop
  refine { hagrees with strays := by rw [hnone, hstrays, List.map_nil], outermost := fun o ho ↦ ?_ }
  cases hcase : g.closed with
  | true => simp [hclosed hcase] at ho
  | false =>
    rw [(hg.unclosed hcase).1, List.getLast?_concat] at ho
    cases ho
    exact List.mem_append_left _ (by simp [BraceGroup.errors, hcase])

theorem foldl_append (ts : List Forest) (t : Forest) :
    ts.foldl append t = ⟨t.nodes ++ ts.flatMap nodes, t.errors ++ ts.flatMap errors⟩ := by
  induction ts generalizing t with
  | nil => simp
  | cons u ts ih => simp [ih, append]

theorem mem_errors_foldl {ts : List Forest} {e : DelimiterError} :
    e ∈ (ts.foldl append empty).errors ↔ ∃ t ∈ ts, e ∈ t.errors := by
  simp [foldl_append, empty]

theorem mem_nodes_foldl {ts : List Forest} {o : Outline} :
    o ∈ preorderAll (ts.foldl append empty).nodes ↔ ∃ t ∈ ts, o ∈ preorderAll t.nodes := by
  simp [foldl_append, empty, Outline.mem_preorderAll_flatMap]

theorem item_follows {d : ItemDraft} (hd : d.Braced (f :: rest)) (hkind : d.kind ≠ .braceBlock)
    {content : BraceGroup → Forest}
    (hblocks : ∀ g ∈ d.groups,
      (block g (content g)).Agrees (Braces.of ((f :: rest).take (d.more + 1))) stop ∧
        strays (block g (content g)).errors = []) :
    (item f d ((d.groups.map fun g ↦ block g (content g)).foldl append empty)).Follows
      (Braces.of ((f :: rest).take (d.more + 1))) stop := by
  have hrecords := hd.records
  constructor
  case toAgrees =>
    refine ⟨fun o ho ↦ ?_, fun e he hon ↦ ?_⟩
    · rw [item, Outline.preorderAll_singleton] at ho
      rcases List.mem_cons.1 ho with rfl | ho
      · exact fun hblock ↦ absurd hblock hkind
      · obtain ⟨t, ht, ho⟩ := mem_nodes_foldl.1 ho
        obtain ⟨g, hg, rfl⟩ := List.mem_map.1 ht
        exact (hblocks g hg).1.blocks o ho
    · rcases List.mem_append.1 he with he | he
      · exact (hrecords.blamed e he (.inr hon)).2
      · obtain ⟨t, ht, he⟩ := mem_errors_foldl.1 he
        obtain ⟨g, hg, rfl⟩ := List.mem_map.1 ht
        exact (hblocks g hg).1.unclosed e he hon
  case strays =>
    rw [hrecords.strays, List.map_nil, DelimiterError.strays_eq_nil_iff]
    intro e he hon
    rcases List.mem_append.1 he with he | he
    · have hopen := (hrecords.blamed e he (.inl hon)).1
      rw [hon] at hopen
      cases hopen
    · obtain ⟨t, ht, he⟩ := mem_errors_foldl.1 he
      obtain ⟨g, hg, rfl⟩ := List.mem_map.1 ht
      exact DelimiterError.strays_eq_nil_iff.1 (hblocks g hg).2 e he hon
  case outermost =>
    intro o ho
    rcases hrecords.outermost o ho with he | ⟨g, hg, hclosed, rfl⟩
    · exact List.mem_append_left _ he
    · refine List.mem_append_right _ (mem_errors_foldl.2 ⟨_, List.mem_map_of_mem hg, ?_⟩)
      exact List.mem_append_left _ (by simp [BraceGroup.errors, hclosed])

end Forest

namespace Outline

theorem forest_nil (depth : Nat) (inFunction recovering : Bool) :
    forest depth inFunction recovering [] = Forest.empty := by
  rw [forest]

/-- Reading goes on behind an item only where it leaves no brace open. -/
theorem follows_append {t : Forest} {stop depth n : Nat} {inFunction recovering : Bool} {region : List Focus}
    (ht : t.Follows (Braces.of (region.take n)) stop)
    (hsettled : (Braces.of (region.take n)).opens = [] ∨ region.length ≤ n)
    (hu : (forest depth inFunction recovering (region.drop n)).Follows (Braces.of (region.drop n)) stop) :
    (t.append (forest depth inFunction recovering (region.drop n))).Follows (Braces.of region) stop := by
  rcases hsettled with hopens | hlen
  · have hsplit : Braces.of (region.take n ++ region.drop n) =
        (Braces.of (region.take n)).extend (Braces.of (region.drop n)) := Braces.of_append (.inr hopens)
    rw [List.take_append_drop] at hsplit
    rw [hsplit]
    exact ht.append hopens hu
  · rw [List.drop_eq_nil_of_le hlen, forest_nil, Forest.append_empty]
    rwa [List.take_of_length_le hlen] at ht

section

variable {i : Nat} {f : Focus} {rest : List Focus} {inFunction : Bool} {g : BraceGroup} {t : Forest}

theorem group_follows (hc : Focus.Consecutive i (f :: rest)) (hf : f.token.isPunct "\x7b" = true)
    (hg : g = BraceGroup.of f 0 inFunction rest)
    (ht : t = Forest.empty ∨ t.Follows (Braces.of (rest.take g.inside)) (i + 1 + (rest.take g.inside).length)) :
    (Forest.block g t).Follows (Braces.of ((f :: rest).take g.size)) (i + 1 + rest.length) ∧
      ((Braces.of ((f :: rest).take g.size)).opens = [] ∨ (f :: rest).length ≤ g.size) := by
  obtain ⟨hstrays, hfits, hclosed, hunclosed⟩ := ItemDraft.front_group_fits hc hf hg rfl
  have hskip : g.skip = 0 := by rw [hg, BraceGroup.of_skip]
  have hcontent : g.content rest = rest.take g.inside := by rw [BraceGroup.content, hskip, List.drop_zero]
  rw [← hcontent] at ht
  refine ⟨Forest.block_follows hfits hstrays hclosed ht fun hopen ↦ ?_, ?_⟩
  · have hlen := hunclosed hopen
    have hinside := (hfits.unclosed hopen).2
    have hindex : g.opening.index = i := by rw [hg, BraceGroup.of_opening, hc.head]
    rw [hskip] at hinside
    rw [List.length_cons] at hlen
    rw [hcontent, List.length_take, hindex]
    omega
  · exact ItemDraft.front_group_settled hc hf hg

theorem item_follows (hc : Focus.Consecutive i (f :: rest)) (hplain : Braces.Plain f)
    {d : ItemDraft} (hd : d = ItemDraft.of inFunction f rest) {content : BraceGroup → Forest}
    (ht : ∀ g, content g = Forest.empty ∨ (content g).Follows (Braces.of (g.content rest))
      (i + 1 + g.skip + (g.content rest).length)) :
    (Forest.item f d ((d.groups.map fun g ↦ Forest.block g (content g)).foldl Forest.append Forest.empty)).Follows
      (Braces.of ((f :: rest).take (d.more + 1))) (i + 1 + rest.length) := by
  have hbraced : d.Braced (f :: rest) := hd ▸ ItemDraft.of_braced hc hplain inFunction
  have hsound : d.Sound (fun _ ↦ True) i (rest.length + 1) :=
    hd ▸ ItemDraft.of_sound ⟨hc, fun _ _ ↦ trivial, Nat.zero_add _⟩ inFunction
  refine Forest.item_follows hbraced (hd ▸ ItemDraft.of_kind_ne _ _ _) fun g hg ↦ ?_
  have hfits := hbraced.records.fits g hg
  refine Forest.block_agrees hfits (ht g) fun hopen ↦ ?_
  have hat := hsound.groups.at_skip g hg
  have hinside := (hfits.unclosed hopen).2
  rw [List.tail_cons] at hinside
  rw [BraceGroup.content, List.length_take, List.length_drop, BraceGroup.size, hopen, hat, if_neg (by decide)]
  omega

end

/-- What is read of a region agrees with its braces. -/
theorem forest_follows {i : Nat} {region : List Focus} (depth : Nat) (inFunction recovering : Bool)
    (hc : Focus.Consecutive i region) :
    (forest depth inFunction recovering region).Follows (Braces.of region) (i + region.length) := by
  have hend {i : Nat} {f : Focus} {rest : List Focus} : i + (f :: rest).length = i + 1 + rest.length := by
    rw [List.length_cons]
    omega
  fun_induction forest depth inFunction recovering region generalizing i with
  | case1 => exact Forest.empty_follows _
  | case2 _ _ _ f rest hf =>
    rename_i ih
    have hplain : Braces.Plain f := Braces.plain_of_not_isCode (Token.Kind.isCode_of_skipped hf)
    rw [Braces.of_cons_plain hplain, hend]
    exact ih hc.tail
  | case3 _ _ f rest _ hf =>
    rename_i ih
    rw [Braces.of_cons_stray hf, hend]
    exact (Forest.stray_follows f 0).append rfl (ih hc.tail)
  | case4 _ _ _ f rest _ hf =>
    rename_i ih
    rw [Braces.of_cons_stray hf, hend]
    exact (Forest.stray_follows f 0).append rfl (Forest.recovered_follows (ih hc.tail))
  | case5 _ inFunction _ f rest _ _ hf g content ihInside =>
    rename_i ihRest
    have hcontent : content = Forest.empty ∨
        content.Follows (Braces.of (rest.take g.inside)) (i + 1 + (rest.take g.inside).length) := by
      unfold content
      split
      · exact .inl rfl
      · exact .inr (ihInside (hc.tail.take _))
    obtain ⟨hblock, hsettled⟩ := group_follows hc hf rfl hcontent
    obtain ⟨n, hn⟩ := Nat.exists_eq_add_of_lt g.inside_lt_size
    have hsize : g.size ≤ rest.length + 1 := BraceGroup.of_size_le ..
    have hrest := ihRest (hc.tail.drop (g.size - 1))
    rw [List.length_drop, hn, Nat.add_sub_cancel] at hrest
    rw [hend, hn, Nat.add_sub_cancel]
    rw [hn] at hblock hsettled hsize
    have hstop : i + 1 + rest.length = i + 1 + (g.inside + n) + (rest.length - (g.inside + n)) := by omega
    refine follows_append hblock hsettled ?_
    rwa [List.drop_succ_cons, hstop]
  | case6 _ inFunction _ f rest _ hclose hopen d blocks ihInside =>
    rename_i ihRest
    have hplain : Braces.Plain f := ⟨by simpa using hopen, by simpa using hclose⟩
    have hbraced : d.Braced (f :: rest) := ItemDraft.of_braced hc hplain inFunction
    have hmore : d.more < rest.length + 1 :=
      (ItemDraft.of_sound (P := fun _ ↦ True) ⟨hc, fun _ _ ↦ trivial, Nat.zero_add _⟩ inFunction).more_lt
    have hrest := ihRest (hc.tail.drop d.more)
    rw [List.length_drop] at hrest
    rw [hend]
    refine follows_append (item_follows hc hplain rfl fun g ↦ ?_) hbraced.settled ?_
    · split
      · exact .inl rfl
      · exact .inr (ihInside g ((hc.tail.drop _).take _))
    · rwa [List.drop_succ_cons, show i + 1 + rest.length = i + 1 + d.more + (rest.length - d.more) by omega]

end Outline

/-- What the braces `b` of a file say about its tree and its errors. -/
structure Tree.BracesMatched (tokens : List Token) (b : Braces) (root : Tree) (errors : List DelimiterError) :
    Prop where
  blocks : ∀ t ∈ root.preorder, t.kind = .braceBlock → t.head.recovered = false →
    ∃ opening ∈ Focus.all tokens, opening.token.isPunct "\x7b" = true ∧ t.start = opening.index ∧
      ((∃ close ∈ Focus.all tokens, close.token.isPunct "\x7d" = true ∧
          (opening, close) ∈ b.pairs ∧ t.stop = close.index + 1) ∨
        opening ∈ b.opens ∧ t.stop = tokens.length)
  strays : (DelimiterError.strays errors).Perm (b.strays.map (·.token.span))
  unclosed : ∀ e ∈ errors, e.imbalance = .unclosedOpen '\x7b' → ∃ o ∈ b.opens, e.span = o.token.span
  outermost : ∀ o ∈ b.opens.getLast?, DelimiterError.mk (.unclosedOpen '\x7b') o.token.span ∈ errors

theorem Tree.heads_matched (tokens : List Token) :
    Within (NodeHead.Matched (Braces.of (Focus.all tokens)) tokens.length) 0 tokens.length
      (ofOutline (Outline.ofFoci (Focus.all tokens)).1).children := by
  have hc := Focus.all_consecutive tokens
  have hsound := (Outline.forest_sound 0 false false hc fun _ hf ↦ hf).nodes
  have hfollows := (Outline.forest_follows 0 false false hc).blocks
  rw [Nat.zero_add, Focus.length_all] at hsound hfollows
  exact ofOutline_within (fun _ _ hkind ↦ nomatch hkind) (hsound.of_heads hfollows)

end CodeStyle
