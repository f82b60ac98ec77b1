import CodeStyle.Proofs.DepthLimits

/-!
The limits on the depth of a tree are reached. Braces that only open make a tower of blocks, and conditionals that are
opened one after another and then closed lie in each other, as many as grouping has levels.
-/

namespace CodeStyle

theorem closeDistance_opens {region : List Focus} (h : ∀ f ∈ region, f.token.isPunct "\x7b" = true) (depth : Nat) :
    closeDistance depth region = none := by
  induction region generalizing depth with
  | nil => rfl
  | cons f rest ih =>
    rw [List.forall_mem_cons] at h
    simp only [closeDistance, h.1, if_true, ih h.2, Option.map_none]

namespace Outline

/-- Blocks of which each is all that the one around it holds. -/
inductive Tower : Nat → List Outline → Prop where
  | nil : Tower 0 []
  | cons {n : Nat} {head : NodeHead} {children : List Outline} (hblock : head.isBlock = true) (h : Tower n children) :
      Tower (n + 1) [.node head children]

theorem forest_tower {region : List Focus} {depth : Nat} (inFunction recovering : Bool)
    (h : ∀ f ∈ region, f.token.isPunct "\x7b" = true) (hdepth : depth + region.length ≤ maxDepth + 1) :
    Tower region.length (forest depth inFunction recovering region).nodes := by
  induction region generalizing depth recovering with
  | nil =>
    rw [forest_nil]
    exact .nil
  | cons f rest ih =>
    obtain ⟨hf, hrest⟩ := List.forall_mem_cons.1 h
    -- nothing closes, so that the group holds all that follows
    have hgroup : BraceGroup.of f 0 inFunction rest = ⟨f, 0, rest.length, false, inFunction⟩ := by
      rw [BraceGroup.of, closeDistance_opens hrest]
    have hread : ¬(f.token.isTrivia || f.token.kind.isInvalid) = true := by
      intro hskip
      rw [Token.isPunct_of_not_isCode (Token.Kind.isCode_of_skipped hskip)] at hf
      cases hf
    have hclose : ¬f.token.isPunct "\x7d" = true := by
      rw [Token.isPunct_eq_false hf (by decide)]
      exact Bool.false_ne_true
    rw [forest, if_neg hread, if_neg hclose, if_pos hf, hgroup]
    have hnothing : rest.drop ((⟨f, 0, rest.length, false, inFunction⟩ : BraceGroup).size - 1) = [] :=
      List.drop_length
    rw [List.length_cons] at hdepth
    dsimp only
    rw [hnothing, forest_nil, Forest.append_empty, List.take_length]
    refine .cons rfl ?_
    split
    · have hnone : rest = [] := List.length_eq_zero_iff.1 (by omega)
      rw [hnone]
      exact .nil
    · exact ih false hrest (by omega)

/-- The mark that a directive has among its siblings. -/
def markOf (t : Token) : Tree.Mark :=
  if ["if", "ifdef", "ifndef"].contains (directiveName t.text) then .opens
  else if directiveName t.text == "endif" then .closes
  else .other

theorem forest_marks {region : List Focus} (depth : Nat) (inFunction recovering : Bool)
    (h : ∀ f ∈ region, f.token.kind = .directive ∧ directiveName f.token.text ≠ "define") :
    (forest depth inFunction recovering region).nodes.map (fun o ↦ (Tree.node 0 o.head []).mark) =
      (region.map Focus.token).map markOf := by
  induction region with
  | nil =>
    rw [forest_nil]
    rfl
  | cons f rest ih =>
    obtain ⟨⟨hkind, hname⟩, hrest⟩ := List.forall_mem_cons.1 h
    have hcode : f.isCode = false := by
      rw [Focus.isCode, Token.isCode, hkind]
      rfl
    have hplain := Braces.plain_of_not_isCode hcode
    have hdraft : ItemDraft.of inFunction f rest = .plain .directive 0 := by
      rw [ItemDraft.of, Token.isComment, hkind, if_neg (by decide), if_pos (by decide), beq_false_of_ne hname]
      rfl
    have hskip : ¬(f.token.isTrivia || f.token.kind.isInvalid) = true := by
      rw [Token.isTrivia, hkind]
      exact Bool.false_ne_true
    rw [forest, if_neg hskip, hplain.2, if_neg Bool.false_ne_true, hplain.1, if_neg Bool.false_ne_true, hdraft]
    have hmark : (Forest.item f (.plain .directive 0) .empty).nodes.map (fun o ↦ (Tree.node 0 o.head []).mark) =
        [markOf f.token] := by
      simp [Forest.item, ItemDraft.plain, hkind, Tree.mark, Tree.kind, Tree.head, Outline.head, markOf]
    dsimp only
    rw [Forest.append, List.map_append, List.map_cons, List.map_cons, ← ih hrest]
    exact congrArg (· ++ _) hmark

end Outline

namespace Tree

inductive Tower : Nat → List Tree → Prop where
  | nil : Tower 0 []
  | cons {n id : Nat} {head : NodeHead} {children : List Tree} (hblock : head.isBlock = true) (h : Tower n children) :
      Tower (n + 1) [node id head children]

namespace Tower

variable {n : Nat} {ts : List Tree}

theorem of_numberAll {os : List Outline} (h : Outline.Tower n os) (next : Nat) : Tower n (numberAll next os).1 := by
  induction h generalizing next with
  | nil => exact .nil
  | cons hblock _ ih => exact .cons hblock (ih _)

theorem siblings_group (h : Tower n ts) (next : Nat) : (group next ts).siblings = ts := by
  refine Grouping.siblings_foldl_other fun t ht ↦ ?_
  cases h with
  | nil => cases ht
  | cons hblock _ =>
    cases List.mem_singleton.1 ht
    simp only [NodeHead.isBlock, Bool.and_eq_true, beq_iff_eq] at hblock
    rw [mark, kind, head, hblock.1]
    rfl

theorem of_regroupAll (h : Tower n ts) (next : Nat) : Tower n (regroupAll next ts).1 := by
  induction h generalizing next with
  | nil => exact .nil
  | cons hblock _ ih =>
    refine .cons hblock ?_
    rw [(ih _).siblings_group]
    exact ih _

theorem exists_path (h : Tower n ts) {t : Tree} (ht : t.children = ts) :
    ∃ path, IsPath (t :: path) ∧ path.countP isBlock = n := by
  induction h generalizing t with
  | nil => exact ⟨[], List.isChain_singleton _, rfl⟩
  | @cons n id head children hblock _ ih =>
    obtain ⟨path, hpath, hcount⟩ := @ih (node id head children) rfl
    refine ⟨node id head children :: path, List.isChain_cons_cons.2 ⟨ht ▸ List.mem_cons_self, hpath⟩, ?_⟩
    have htop : isBlock (node id head children) = true := hblock
    rw [List.countP_cons_of_pos htop, hcount]

end Tower

/-- Conditionals in each other, `n` of them from `t` on. -/
inductive Nested : Nat → Tree → Prop where
  | zero (t : Tree) : Nested 0 t
  | succ {n : Nat} {t c : Tree} (hkind : t.kind = .preprocessorBlock) (hc : c ∈ t.children) (h : Nested n c) :
      Nested (n + 1) t

theorem Nested.exists_chain {n : Nat} {root p t : Tree} (h : Nested n t) (hp : p ∈ root.preorder)
    (ht : t ∈ p.children) : ∃ chain, (∀ u ∈ chain, u ∈ root.preorder ∧ u.kind = .preprocessorBlock) ∧
      IsPath (p :: chain) ∧ chain.length = n := by
  induction h generalizing p with
  | zero => exact ⟨[], List.forall_mem_nil _, List.isChain_singleton _, rfl⟩
  | @succ n t c hkind hc _ ih =>
    have hbelow := child_mem_preorder hp ht
    obtain ⟨chain, hchain, hpath, hlength⟩ := ih hbelow hc
    exact ⟨t :: chain, List.forall_mem_cons.2 ⟨⟨hbelow, hkind⟩, hchain⟩, List.isChain_cons_cons.2 ⟨ht, hpath⟩,
      congrArg (· + 1) hlength⟩

namespace Grouping

variable {g : Grouping} {t : Tree} {ts : List Tree}

theorem foldl_opens (h : ∀ t ∈ ts, t.mark = .opens) (hroom : g.pending.length + ts.length ≤ maxDepth) :
    ts.foldl step g = { g with pending := (ts.map ([·])).reverse ++ g.pending } := by
  induction ts generalizing g with
  | nil => rfl
  | cons t ts ih =>
    rw [List.forall_mem_cons] at h
    rw [List.length_cons] at hroom
    have hstep : g.step t = { g with pending := [t] :: g.pending } := by
      rw [step, h.1]
      exact if_pos (by omega)
    rw [List.foldl_cons, hstep, ih h.2 (by simp only [List.length_cons]; omega)]
    simp

theorem foldl_closes {n : Nat} {c : Tree} {members : List Tree} {outer : List (List Tree)}
    (h : ∀ t ∈ ts, t.mark = .closes) (hflat : g.flat = 0) (hp : g.pending = members :: outer)
    (hlength : ts.length = outer.length + 1) (hc : c ∈ members) (hn : Nested n c) :
    ∃ t ∈ (ts.foldl step g).siblings, Nested (n + ts.length) t := by
  induction ts generalizing g n c members outer with
  | nil => cases hlength
  | cons t ts ih =>
    rw [List.forall_mem_cons] at h
    -- the new node becomes a member of the conditional around it, which is closed next
    let block := conditional g.next (t :: members).reverse
    have hblock : Nested (n + 1) block :=
      .succ rfl (List.mem_reverse.2 (List.mem_cons_of_mem _ hc)) hn
    have hstep : g.step t = { g with pending := outer, next := g.next + 1 }.add block := by
      simp [step, h.1, hflat, hp, block]
    rw [List.foldl_cons, hstep]
    have hlevels : ts.length = outer.length := Nat.succ.inj hlength
    rw [List.length_cons, Nat.add_comm ts.length, ← Nat.add_assoc]
    cases outer with
    | nil =>
      obtain rfl := List.length_eq_zero_iff.1 hlevels
      refine ⟨block, ?_, hblock⟩
      rw [List.foldl_nil, siblings_add]
      exact List.mem_append_right _ (List.mem_singleton_self _)
    | cons members' outer => exact ih h.2 hflat rfl hlevels List.mem_cons_self hblock

end Grouping

/-- Conditionals that are opened one after another and then closed all become nodes. -/
theorem exists_nested {n : Nat} {ts : List Tree} (hpos : 0 < n) (hn : n ≤ maxDepth)
    (hmarks : ts.map mark = List.replicate n .opens ++ List.replicate n .closes) (next : Nat) :
    ∃ t ∈ (group next ts).siblings, Nested n t := by
  obtain ⟨opens, closes, rfl, hopens, hcloses⟩ := List.map_eq_append_iff.1 hmarks
  rw [List.eq_replicate_iff, List.length_map, List.forall_mem_map] at hopens hcloses
  obtain ⟨front, last, rfl⟩ : ∃ front last, opens = front ++ [last] :=
    (List.eq_nil_or_concat' opens).resolve_left (List.ne_nil_of_length_pos (hopens.1.symm ▸ hpos))
  have hopened : (front ++ [last]).foldl Grouping.step ⟨[], [], 0, next⟩ =
      ⟨[], ((front ++ [last]).map ([·])).reverse ++ [], 0, next⟩ := by
    refine Grouping.foldl_opens hopens.2 ?_
    rw [hopens.1, List.length_nil, Nat.zero_add]
    exact hn
  have hlevels : ((front ++ [last]).map ([·])).reverse ++ [] = [last] :: (front.map ([·])).reverse := by simp
  have hlength : closes.length = (front.map ([·])).reverse.length + 1 := by
    rw [hcloses.1, ← hopens.1]
    simp
  have h := Grouping.foldl_closes (g := ⟨[], _, 0, next⟩) hcloses.2 rfl hlevels hlength (List.mem_singleton_self last)
    (.zero last)
  rwa [hcloses.1, Nat.zero_add, ← hopened, ← List.foldl_append] at h

theorem map_mark_numberAll (next : Nat) (os : List Outline) :
    (numberAll next os).1.map mark = os.map fun o ↦ (node 0 o.head []).mark := by
  have hmark : mark = (fun h ↦ (node 0 h []).mark) ∘ head := rfl
  rw [hmark, ← List.map_map, heads_numberAll, List.map_map]
  rfl

theorem children_ofFoci (tokens : List Token) : ∃ next k,
    (ofOutline (Outline.ofFoci (Focus.all tokens)).1).children =
      (group next (regroupAll k (numberAll 1 (Outline.forest 0 false false (Focus.all tokens)).nodes).1).1).siblings :=
  ⟨_, _, rfl⟩

theorem isBlock_ofFoci (tokens : List Token) : (ofOutline (Outline.ofFoci (Focus.all tokens)).1).isBlock = false := rfl

/-- Braces that only open nest as deep as blocks can. -/
theorem exists_deep_path : ∃ tokens path, path.head? = some (ofOutline (Outline.ofFoci (Focus.all tokens)).1) ∧
    IsPath path ∧ path.countP isBlock = maxDepth + 1 := by
  let brace : Token := ⟨.punctuation, Text.bytesOf "\x7b", "\x7b", ⟨0, 1, 1, 1, 1, 2⟩⟩
  let tokens := List.replicate (maxDepth + 1) brace
  have hlength : (Focus.all tokens).length = maxDepth + 1 := by rw [Focus.length_all, List.length_replicate]
  have hopens : ∀ f ∈ Focus.all tokens, f.token.isPunct "\x7b" = true := by
    intro f hf
    rw [List.eq_of_mem_replicate (Focus.token_mem hf)]
    decide
  have hread : Outline.Tower (Focus.all tokens).length (Outline.forest 0 false false (Focus.all tokens)).nodes := by
    refine Outline.forest_tower false false hopens ?_
    rw [hlength, Nat.zero_add]
  rw [hlength] at hread
  obtain ⟨next, k, hchildren⟩ := children_ofFoci tokens
  have htower := (Tower.of_numberAll hread 1).of_regroupAll k
  rw [← htower.siblings_group next, ← hchildren] at htower
  obtain ⟨path, hpath, hcount⟩ := htower.exists_path rfl
  refine ⟨tokens, _ :: path, rfl, hpath, ?_⟩
  rw [List.countP_cons_of_neg (Bool.eq_false_iff.1 (isBlock_ofFoci tokens)), hcount]

/-- Conditional directives nest as deep as conditionals can. -/
theorem exists_deep_chain : ∃ tokens chain,
    (∀ t ∈ chain, t ∈ (ofOutline (Outline.ofFoci (Focus.all tokens)).1).preorder ∧ t.kind = .preprocessorBlock) ∧
      IsPath chain ∧ chain.length = maxDepth := by
  let directive (text : String) : Token := ⟨.directive, Text.bytesOf text, text, ⟨0, 1, 1, 1, 1, 2⟩⟩
  let tokens := List.replicate maxDepth (directive "#if") ++ List.replicate maxDepth (directive "#endif")
  have hregion : ∀ f ∈ Focus.all tokens, f.token.kind = .directive ∧ directiveName f.token.text ≠ "define" := by
    intro f hf
    rcases List.mem_append.1 (Focus.token_mem hf) with hf | hf
    · rw [List.eq_of_mem_replicate hf]
      decide
    · rw [List.eq_of_mem_replicate hf]
      decide
  obtain ⟨next, k, hchildren⟩ := children_ofFoci tokens
  have hmarks : (regroupAll k (numberAll 1 (Outline.forest 0 false false (Focus.all tokens)).nodes).1).1.map mark =
      List.replicate maxDepth .opens ++ List.replicate maxDepth .closes := by
    have hopen : Outline.markOf (directive "#if") = .opens := by decide
    have hclose : Outline.markOf (directive "#endif") = .closes := by decide
    rw [map_mark_regroupAll, map_mark_numberAll, Outline.forest_marks 0 false false hregion, Focus.map_token_all,
      List.map_append, List.map_replicate, List.map_replicate, hopen, hclose]
  obtain ⟨t, ht, hnested⟩ := exists_nested (by decide) (Nat.le_refl _) hmarks next
  rw [← hchildren] at ht
  obtain ⟨chain, hchain, hpath, hlength⟩ := hnested.exists_chain (self_mem_preorder _) ht
  exact ⟨tokens, chain, hchain, hpath.tail, hlength⟩

/-- The depth of a tree is bounded whatever the tokens are, and no bound can be less. -/
theorem ofFoci_depth_bounded :
    let tree (tokens : List Token) : Tree := ofOutline (Outline.ofFoci (Focus.all tokens)).1
    (∀ tokens, DepthLimited 256 (tree tokens)) ∧
    (∃ tokens path, path.head? = some (tree tokens) ∧ IsPath path ∧ path.countP isBlock = 257) ∧
    (∃ tokens, (tree tokens).preorder.countP isRecovered = 1) ∧
    ∃ tokens chain, (∀ t ∈ chain, t ∈ (tree tokens).preorder ∧ t.kind = .preprocessorBlock) ∧ IsPath chain ∧
      chain.length = 256 := by
  refine ⟨depthLimited_ofFoci, exists_deep_path, ?_, exists_deep_chain⟩
  exact ⟨[⟨.punctuation, Text.bytesOf "\x7d", "\x7d", ⟨0, 1, 1, 1, 1, 2⟩⟩], by decide +kernel⟩

end Tree

end CodeStyle
