import CodeStyle.Proofs.Enclosure

/-!
How deep a tree can be. Something is counted on the way down, and the count stays within a limit: the reader reads
nothing in a block with too many around it, and grouping leaves alone what would be open in too many conditionals.
What stands for the text behind stray braces starts at the first of them, so that there is only one such block.
-/

namespace CodeStyle

/-- Counts the blocks on a way down. -/
def NodeHead.countBlocks (n : Nat) (h : NodeHead) : Nat := n + h.isBlock.toNat

/-- Counts conditionals on a way down as long as one directly follows the other. -/
def NodeHead.countConditionals (n : Nat) (h : NodeHead) : Nat := if h.kind = .preprocessorBlock then n + 1 else 0

theorem NodeHead.countBlocks_of_kind_ne {h : NodeHead} (hkind : h.kind ≠ .braceBlock) (n : Nat) :
    countBlocks n h = n := by
  rw [countBlocks, isBlock, beq_false_of_ne hkind]
  rfl

open NodeHead (countBlocks countConditionals)

/-- No way down from a node, with `n` counted above it, counts more than `limit`. -/
inductive Outline.Bounded (count : Nat → NodeHead → Nat) (limit : Nat) : Nat → Outline → Prop where
  | node {n : Nat} {head : NodeHead} {children : List Outline} (hle : count n head ≤ limit)
      (hchildren : ∀ o ∈ children, Bounded count limit (count n head) o) : Bounded count limit n (.node head children)

/-- The same for the nodes of a tree. -/
inductive Tree.Bounded (count : Nat → NodeHead → Nat) (limit : Nat) : Nat → Tree → Prop where
  | node {n id : Nat} {head : NodeHead} {children : List Tree} (hle : count n head ≤ limit)
      (hchildren : ∀ t ∈ children, Bounded count limit (count n head) t) :
      Bounded count limit n (.node id head children)

namespace Outline

section

variable {depth : Nat} {t : Forest}

theorem block_bounded (g : BraceGroup) (hdepth : depth ≤ maxDepth)
    (ht : depth + 1 ≤ maxDepth → ∀ o ∈ t.nodes, o.Bounded countBlocks (maxDepth + 1) (depth + 1)) :
    ∀ o ∈ (Forest.block g (if maxDepth ≤ depth then Forest.empty else t)).nodes,
      o.Bounded countBlocks (maxDepth + 1) depth := by
  intro o ho
  cases List.mem_singleton.1 ho
  refine .node (Nat.succ_le_succ hdepth) ?_
  split
  · exact List.forall_mem_nil _
  · rename_i hroom
    exact ht (Nat.lt_of_not_le hroom)

/-- Below a region that is `depth` blocks deep there are not more blocks than are still followed, and one. -/
theorem forest_bounded (inFunction recovering : Bool) (region : List Focus) (hdepth : depth ≤ maxDepth) :
    ∀ o ∈ (forest depth inFunction recovering region).nodes, o.Bounded countBlocks (maxDepth + 1) depth := by
  fun_induction forest depth inFunction recovering region with
  | case1 => exact List.forall_mem_nil _
  | case2 =>
    rename_i ih
    exact ih hdepth
  | case3 =>
    rename_i ih
    exact ih hdepth
  | case4 =>
    rename_i ih
    intro o ho
    cases List.mem_singleton.1 ho
    exact .node (Nat.le_succ_of_le hdepth) (ih hdepth)
  | case5 _ inFunction _ f rest _ _ _ g content ihInside =>
    rename_i ihRest
    exact List.forall_mem_append.2 ⟨block_bounded g hdepth ihInside, ihRest hdepth⟩
  | case6 depth inFunction _ f rest _ _ _ d blocks ihInside =>
    rename_i ihRest
    refine List.forall_mem_append.2 ⟨fun o ho ↦ ?_, ihRest hdepth⟩
    cases List.mem_singleton.1 ho
    have hcount (head : NodeHead) (hkind : head.kind = d.kind) : countBlocks depth head = depth :=
      NodeHead.countBlocks_of_kind_ne (hkind ▸ ItemDraft.of_kind_ne _ _ _) depth
    apply Bounded.node
    · rw [hcount _ rfl]
      exact Nat.le_succ_of_le hdepth
    · rw [hcount _ rfl, Forest.foldl_append]
      intro o ho
      obtain ⟨t, ht, ho⟩ := List.mem_flatMap.1 ho
      obtain ⟨g, -, rfl⟩ := List.mem_map.1 ht
      exact block_bounded g hdepth (ihInside g) o ho

end

section

variable {i depth n : Nat} {region : List Focus}

theorem strays_of_drop (hsettled : (Braces.of (region.take n)).opens = [] ∨ region.length ≤ n)
    (hstrays : (Braces.of (region.take n)).strays = []) :
    (Braces.of region).strays = (Braces.of (region.drop n)).strays := by
  rcases hsettled with hopens | hlen
  · have hsplit : Braces.of (region.take n ++ region.drop n) =
        (Braces.of (region.take n)).extend (Braces.of (region.drop n)) := Braces.of_append (.inr hopens)
    rw [List.take_append_drop] at hsplit
    rw [hsplit, Braces.extend, hstrays, List.nil_append]
  · rw [List.take_of_length_le hlen] at hstrays
    rw [hstrays, List.drop_eq_nil_of_le hlen]
    rfl

/-- What is recovered starts at the first stray brace, and nothing is where there are none. -/
theorem forest_recovered (depth : Nat) (inFunction recovering : Bool) (hc : Focus.Consecutive i region) :
    ∀ o ∈ preorderAll (forest depth inFunction recovering region).nodes, o.head.recovered = true →
      recovering = false ∧ (Braces.of region).strays.head?.map Focus.index = some o.head.start := by
  -- the inside of a group has no stray braces
  have inside {t : Forest} {deep : Prop} [Decidable deep] {region : List Focus} {o : Outline}
      (ht : o ∈ preorderAll t.nodes → (Braces.of region).strays.head?.map Focus.index = some o.head.start)
      (hstrays : (Braces.of region).strays = []) :
      o ∉ preorderAll (if deep then Forest.empty else t).nodes := by
    intro ho
    split at ho
    · cases ho
    · have hstart := ht ho
      rw [hstrays] at hstart
      cases hstart
  fun_induction forest depth inFunction recovering region generalizing i with
  | case1 => simp [Forest.empty]
  | case2 _ _ _ f rest hf =>
    rename_i ih
    rw [Braces.of_cons_plain (Braces.plain_of_not_isCode (Token.Kind.isCode_of_skipped hf))]
    exact ih hc.tail
  | case3 =>
    rename_i ih
    intro o ho hrec
    cases (ih hc.tail o ho hrec).1
  | case4 _ _ recovering f rest _ hf =>
    rename_i hrecovering ih
    intro o ho hrec
    rw [Forest.append, List.nil_append, Forest.recovered, preorderAll_singleton] at ho
    rcases List.mem_cons.1 ho with rfl | ho
    · refine ⟨by simpa using hrecovering, ?_⟩
      rw [Braces.of_cons_stray hf]
      rfl
    · cases (ih hc.tail o ho hrec).1
  | case5 _ inFunction _ f rest _ _ hf g content ihInside =>
    rename_i ihRest
    obtain ⟨hskip, -⟩ := BraceGroup.of_front (g := g) hc rfl
    obtain ⟨hstrays, hfits, -⟩ := ItemDraft.front_group_fits hc hf (g := g) rfl rfl
    have hcontent : g.content rest = rest.take g.inside := by rw [BraceGroup.content, hskip, List.drop_zero]
    rw [strays_of_drop (ItemDraft.front_group_settled hc hf rfl) hstrays, g.drop_size f]
    intro o ho hrec
    rw [Forest.append, preorderAll_append, Forest.block, preorderAll_singleton] at ho
    rcases List.mem_append.1 ho with ho | ho
    · rcases List.mem_cons.1 ho with rfl | ho
      · cases hrec
      · exact absurd ho (inside (fun ho ↦ (ihInside (hc.tail.take _) o ho hrec).2) (hcontent ▸ hfits.strays))
    · exact ihRest (hc.tail.drop _) o ho hrec
  | case6 _ inFunction _ f rest _ hclose hopen d blocks ihInside =>
    rename_i ihRest
    have hplain : Braces.Plain f := ⟨by simpa using hopen, by simpa using hclose⟩
    have hbraced : d.Braced (f :: rest) := ItemDraft.of_braced hc hplain inFunction
    rw [strays_of_drop hbraced.settled hbraced.records.strays, List.drop_succ_cons]
    intro o ho hrec
    rw [Forest.append, preorderAll_append, Forest.item, preorderAll_singleton] at ho
    rcases List.mem_append.1 ho with ho | ho
    · rcases List.mem_cons.1 ho with rfl | ho
      · cases hrec
      · obtain ⟨t, ht, ho⟩ := Forest.mem_nodes_foldl.1 ho
        obtain ⟨g, hg, rfl⟩ := List.mem_map.1 ht
        rw [Forest.block, preorderAll_singleton] at ho
        rcases List.mem_cons.1 ho with rfl | ho
        · cases hrec
        · have hstrays := (hbraced.records.fits g hg).strays
          exact absurd ho (inside (fun ho ↦ (ihInside g ((hc.tail.drop _).take _) o ho hrec).2) hstrays)
    · exact ihRest (hc.tail.drop _) o ho hrec

end

end Outline

namespace Tree

variable {count : Nat → NodeHead → Nat} {limit n : Nat} {t : Tree} {ts : List Tree}

theorem exists_number {next : Nat} {os : List Outline} (h : t ∈ (numberAll next os).1) :
    ∃ o ∈ os, ∃ k, t = (number k o).1 := by
  induction os generalizing next with
  | nil => cases h
  | cons o os ih =>
    rcases List.mem_cons.1 h with rfl | h
    · exact ⟨o, List.mem_cons_self, next, rfl⟩
    · obtain ⟨u, hu, hk⟩ := ih h
      exact ⟨u, List.mem_cons_of_mem _ hu, hk⟩

theorem exists_regroup {next : Nat} (h : t ∈ (regroupAll next ts).1) : ∃ u ∈ ts, ∃ k, t = (regroup k u).1 := by
  induction ts generalizing next with
  | nil => cases h
  | cons u ts ih =>
    rcases List.mem_cons.1 h with rfl | h
    · exact ⟨u, List.mem_cons_self, next, rfl⟩
    · obtain ⟨w, hw, hk⟩ := ih h
      exact ⟨w, List.mem_cons_of_mem _ hw, hk⟩

/-- Each node the parent of the next. -/
def IsPath (path : List Tree) : Prop := path.IsChain fun p c ↦ c ∈ p.children

namespace Bounded

theorem mono {m : Nat} (hcount : ∀ {a b : Nat} (h : NodeHead), a ≤ b → count a h ≤ count b h)
    (h : t.Bounded count limit n) (hle : m ≤ n) : t.Bounded count limit m := by
  induction h generalizing m with
  | @node n id head children hn _ ih =>
    have hhead := hcount head hle
    exact .node (Nat.le_trans hhead hn) fun t ht ↦ ih t ht hhead

theorem of_mem_preorder (h : t.Bounded count limit n) : ∀ u ∈ t.preorder, ∃ m, u.Bounded count limit m := by
  induction h with
  | @node n id head children hle hchildren ih =>
    intro u hu
    rcases mem_preorder_iff.1 hu with rfl | ⟨c, hc, hu⟩
    · exact ⟨n, .node hle hchildren⟩
    · exact ih c hc u hu

theorem foldl_le (h : t.Bounded count limit n) (hpath : IsPath (t :: ts)) :
    (t :: ts).foldl (fun n u ↦ count n u.head) n ≤ limit := by
  induction ts generalizing t n with
  | nil =>
    cases h with
    | node hle _ => exact hle
  | cons c ts ih =>
    obtain ⟨hc, hrest⟩ := List.isChain_cons_cons.1 hpath
    cases h with
    | node _ hchildren => exact ih (hchildren c hc) hrest

theorem of_number {o : Outline} (h : o.Bounded count limit n) (next : Nat) :
    (number next o).1.Bounded count limit n := by
  induction h generalizing next with
  | node hle _ ih =>
    refine .node hle fun t ht ↦ ?_
    obtain ⟨o, ho, k, rfl⟩ := exists_number ht
    exact ih o ho k

end Bounded

/-! Conditionals do not count as blocks. -/

theorem Grouping.foldl_bounded {g : Grouping} (hn : n ≤ limit)
    (h : ∀ t ∈ g.siblings ++ ts, t.Bounded countBlocks limit n) :
    ∀ t ∈ (ts.foldl step g).siblings, t.Bounded countBlocks limit n := by
  induction ts generalizing g with
  | nil => rwa [List.append_nil] at h
  | cons t ts ih =>
    rw [List.append_cons, List.forall_mem_append] at h
    refine ih (List.forall_mem_append.2 ⟨?_, h.2⟩)
    rcases g.step_cases t with ⟨hs, -⟩ | ⟨front, members, hg, hs, -⟩
    · rw [hs]
      exact h.1
    · rw [hg, List.append_assoc, List.forall_mem_append] at h
      rw [hs, List.forall_mem_append, List.forall_mem_singleton]
      exact ⟨h.1.1, .node hn h.1.2⟩

theorem regroup_bounded (h : t.Bounded countBlocks limit n) (next : Nat) :
    (regroup next t).1.Bounded countBlocks limit n := by
  induction h generalizing next with
  | node hle _ ih =>
    refine .node hle (Grouping.foldl_bounded hle fun t ht ↦ ?_)
    obtain ⟨u, hu, k, rfl⟩ := exists_regroup ht
    exact ih u hu k

theorem foldl_countBlocks (n : Nat) (ts : List Tree) :
    ts.foldl (fun n u ↦ countBlocks n u.head) n = n + ts.countP isBlock := by
  induction ts generalizing n with
  | nil => rfl
  | cons t ts ih =>
    rw [List.foldl_cons, ih, List.countP_cons, countBlocks, isBlock]
    cases t.head.isBlock
    · rfl
    · exact Nat.add_right_comm n 1 _

/-! Grouping has `maxDepth` levels of open conditionals, and what is on a level has room for those around it. -/

theorem countConditionals_mono {a b : Nat} (h : NodeHead) (hle : a ≤ b) :
    countConditionals a h ≤ countConditionals b h := by
  unfold countConditionals
  split
  · exact Nat.succ_le_succ hle
  · exact Nat.le_refl _

theorem foldl_countConditionals (n : Nat) (h : ∀ t ∈ ts, t.kind = .preprocessorBlock) :
    ts.foldl (fun n u ↦ countConditionals n u.head) n = n + ts.length := by
  induction ts generalizing n with
  | nil => rfl
  | cons t ts ih =>
    rw [List.forall_mem_cons] at h
    have hcount : countConditionals n t.head = n + 1 := if_pos h.1
    rw [List.foldl_cons, hcount, ih _ h.2, List.length_cons, Nat.add_assoc, Nat.add_comm 1]

/-- The members of open conditionals, innermost first. -/
inductive Levelled : List (List Tree) → Prop where
  | nil : Levelled []
  | cons {members : List Tree} {outer : List (List Tree)} (hroom : outer.length < maxDepth)
      (hmembers : ∀ t ∈ members, t.Bounded countConditionals maxDepth (outer.length + 1))
      (houter : Levelled outer) : Levelled (members :: outer)

theorem Levelled.bounded {pending : List (List Tree)} (h : Levelled pending) :
    ∀ members ∈ pending, ∀ t ∈ members, t.Bounded countConditionals maxDepth 0 := by
  induction h with
  | nil => exact List.forall_mem_nil _
  | cons _ hmembers _ ih =>
    exact List.forall_mem_cons.2 ⟨fun t ht ↦ (hmembers t ht).mono countConditionals_mono (Nat.zero_le _), ih⟩

namespace Grouping

structure Chained (g : Grouping) : Prop where
  done : ∀ t ∈ g.done, t.Bounded countConditionals maxDepth 0
  pending : Levelled g.pending

namespace Chained

variable {g : Grouping}

theorem add (h : g.Chained) (ht : t.Bounded countConditionals maxDepth g.pending.length) : (g.add t).Chained := by
  obtain ⟨done, pending, flat, next⟩ := g
  cases h.pending with
  | nil => exact ⟨List.forall_mem_cons.2 ⟨ht, h.done⟩, .nil⟩
  | cons hroom hmembers houter => exact ⟨h.done, .cons hroom (List.forall_mem_cons.2 ⟨ht, hmembers⟩) houter⟩

theorem step (h : g.Chained) (ht : ∀ n, t.Bounded countConditionals maxDepth n) : (g.step t).Chained := by
  have hadd : (g.add t).Chained := h.add (ht _)
  fun_cases Grouping.step g t with
  | case1 _ hroom => exact ⟨h.done, .cons hroom (List.forall_mem_singleton.2 (ht _)) h.pending⟩
  | case2 => exact ⟨hadd.done, hadd.pending⟩
  | case3 => exact ⟨hadd.done, hadd.pending⟩
  | case4 => exact hadd
  | case5 _ _ members outer hp =>
    have hlevels := h.pending
    rw [hp] at hlevels
    cases hlevels with
    | cons hroom hmembers houter =>
      -- the new node is one level further out than its members
      have hrest : Chained { g with pending := outer, next := g.next + 1 } := ⟨h.done, houter⟩
      refine hrest.add (.node hroom fun u hu ↦ ?_)
      rcases List.mem_cons.1 (List.mem_reverse.1 hu) with rfl | hu
      · exact ht _
      · exact hmembers u hu
  | case6 => exact hadd

theorem foldl (h : g.Chained) (hts : ∀ t ∈ ts, ∀ n, t.Bounded countConditionals maxDepth n) :
    (ts.foldl Grouping.step g).Chained := by
  induction ts generalizing g with
  | nil => exact h
  | cons t ts ih =>
    rw [List.forall_mem_cons] at hts
    exact ih (h.step hts.1) hts.2

theorem siblings (h : g.Chained) : ∀ t ∈ g.siblings, t.Bounded countConditionals maxDepth 0 := by
  intro t ht
  rcases List.mem_append.1 ht with ht | ht
  · exact h.done t (List.mem_reverse.1 ht)
  · obtain ⟨members, hmembers, ht⟩ := List.mem_flatten.1 ht
    obtain ⟨members, hpending, rfl⟩ := List.mem_map.1 hmembers
    exact h.pending.bounded members (List.mem_reverse.1 hpending) t (List.mem_reverse.1 ht)

end Chained

end Grouping

theorem regroup_chained (h : ∀ u ∈ t.preorder, u.kind ≠ .preprocessorBlock) (next n : Nat) :
    (regroup next t).1.Bounded countConditionals maxDepth n := by
  induction t using induct generalizing next n with
  | node id head children ih =>
    rw [preorder_eq_cons, List.forall_mem_cons] at h
    have hcount : countConditionals n head = 0 := if_neg h.1
    have hnone : Grouping.Chained ⟨[], [], 0, next⟩ := ⟨List.forall_mem_nil _, .nil⟩
    apply Bounded.node
    · rw [hcount]
      exact Nat.zero_le _
    · rw [hcount]
      apply (hnone.foldl fun t ht n ↦ ?_).siblings
      obtain ⟨c, hc, k, rfl⟩ := exists_regroup ht
      exact ih c hc (fun u hu ↦ h.2 u (List.mem_flatMap.2 ⟨c, hc, hu⟩)) k n

/-- A block that stands for what follows a stray brace. -/
def isRecovered (t : Tree) : Bool := t.kind == .braceBlock && t.head.recovered

section

variable (tokens : List Token)

theorem bounded_ofFoci : (ofOutline (Outline.ofFoci (Focus.all tokens)).1).Bounded countBlocks (maxDepth + 1) 0 := by
  refine regroup_bounded (.of_number (.node ?_ ?_) 0) _
  · exact Nat.zero_le _
  · exact Outline.forest_bounded false false _ (Nat.zero_le _)

theorem chained_ofFoci : (ofOutline (Outline.ofFoci (Focus.all tokens)).1).Bounded countConditionals maxDepth 0 := by
  refine regroup_chained (number_nodes (Q := fun h _ ↦ h.kind ≠ .preprocessorBlock) _ _ fun o ho hkind ↦ ?_) _ _
  rcases Outline.mem_preorder_ofFoci.1 ho with rfl | ho
  · cases hkind
  · rcases Outline.forest_bracketed 0 false false (Focus.all_consecutive tokens) (fun _ hf ↦ hf) o ho with hitem | h
    · rw [hkind] at hitem
      cases hitem
    · cases hkind.symm.trans h.1

theorem recovered_ofFoci : ∀ t ∈ (ofOutline (Outline.ofFoci (Focus.all tokens)).1).preorder, t.head.recovered = true →
    (Braces.of (Focus.all tokens)).strays.head?.map Focus.index = some t.start := by
  have hc := Focus.all_consecutive tokens
  have hread := (Outline.forest_sound 0 false false hc fun _ hf ↦ hf).nodes.of_heads
    (R := fun h ↦ h.recovered = true → (Braces.of (Focus.all tokens)).strays.head?.map Focus.index = some h.start)
    fun o ho hrec ↦ (Outline.forest_recovered 0 false false hc o ho hrec).2
  intro t ht hrec
  rcases mem_preorder_iff.1 ht with rfl | ⟨c, hc, ht⟩
  · cases hrec
  · exact ((ofOutline_within (fun _ _ hrec ↦ nomatch hrec) hread).of_mem hc ht).2.2.2.1 hrec

/-- The brace with which a block starts is in no node inside of the block. -/
theorem owns_start_ofFoci : ∀ t ∈ (ofOutline (Outline.ofFoci (Focus.all tokens)).1).preorder, t.kind = .braceBlock →
    t.Owns t.start := by
  intro t ht hkind
  have hbracketed := bracketed_ofFoci tokens t ht hkind
  obtain ⟨hlt, -⟩ := range_node ht fun hroot ↦ by
    rw [hroot] at hkind
    cases hkind
  exact ⟨Nat.le_refl _, hlt, fun c hin hcovers ↦ Nat.not_le.2 (hbracketed.inner c hin) hcovers.1⟩

theorem count_recovered_ofFoci : (ofOutline (Outline.ofFoci (Focus.all tokens)).1).preorder.countP isRecovered ≤ 1 := by
  rw [List.countP_eq_length_filter]
  have happart := (owns_ofFoci tokens).filter isRecovered
  have hfound : ∀ t ∈ (ofOutline (Outline.ofFoci (Focus.all tokens)).1).preorder.filter isRecovered,
      t.Owns t.start ∧ (Braces.of (Focus.all tokens)).strays.head?.map Focus.index = some t.start := by
    intro t ht
    obtain ⟨ht, hrec⟩ := List.mem_filter.1 ht
    simp only [isRecovered, Bool.and_eq_true, beq_iff_eq] at hrec
    exact ⟨owns_start_ofFoci tokens t ht hrec.1, recovered_ofFoci tokens t ht hrec.2⟩
  generalize (ofOutline (Outline.ofFoci (Focus.all tokens)).1).preorder.filter isRecovered = found at happart hfound ⊢
  cases found with
  | nil => exact Nat.zero_le _
  | cons t found =>
    cases found with
    | nil => exact Nat.le_refl _
    | cons u found =>
      -- both start at the first stray brace
      obtain ⟨htowns, htstart⟩ := hfound t List.mem_cons_self
      obtain ⟨huowns, hustart⟩ := hfound u (List.mem_cons_of_mem _ List.mem_cons_self)
      have hsame : t.start = u.start := Option.some.inj (htstart.symm.trans hustart)
      exact absurd (hsame ▸ huowns) ((List.pairwise_cons.1 happart).1 u List.mem_cons_self _ htowns)

end

/-- How deep a tree may be. -/
structure DepthLimited (limit : Nat) (root : Tree) : Prop where
  blocks : ∀ path, path.head? = some root → IsPath path → path.countP isBlock ≤ limit + 1
  recovered : root.preorder.countP isRecovered ≤ 1
  conditionals : ∀ chain, (∀ t ∈ chain, t ∈ root.preorder ∧ t.kind = .preprocessorBlock) → IsPath chain →
    chain.length ≤ limit

theorem depthLimited_ofFoci (tokens : List Token) :
    DepthLimited maxDepth (ofOutline (Outline.ofFoci (Focus.all tokens)).1) := by
  constructor
  case blocks =>
    intro path hroot hpath
    obtain ⟨rest, rfl⟩ := List.head?_eq_some_iff.1 hroot
    have hle := (bounded_ofFoci tokens).foldl_le hpath
    rwa [foldl_countBlocks, Nat.zero_add] at hle
  case recovered => exact count_recovered_ofFoci tokens
  case conditionals =>
    intro chain hchain hpath
    cases chain with
    | nil => exact Nat.zero_le _
    | cons t rest =>
      obtain ⟨n, hbounded⟩ := (chained_ofFoci tokens).of_mem_preorder t (hchain t List.mem_cons_self).1
      have hle := hbounded.foldl_le hpath
      rw [foldl_countConditionals n fun u hu ↦ (hchain u hu).2] at hle
      exact Nat.le_trans (Nat.le_add_left _ n) hle

end Tree

end CodeStyle
