import CodeStyle.Proofs.Grouping
import Mathlib.Data.List.Forall2
import Mathlib.Data.List.Induction

/-!
Conditional groups are the pairs of a stack. Siblings are matched twice, once by a stack of positions alone
and once by the grouping with its lists of members. Where conditionals do not nest too deep, the new nodes
are those of the pairs, and whatever the depth, the members of the new nodes are the siblings in order.
-/

namespace CodeStyle.Tree

/-- The conditional directives among siblings, matched with a stack. A sibling is told by its position. -/
structure Conditionals where
  /-- The number of siblings seen. -/
  seen : Nat
  /-- The openers that are not closed, innermost first. -/
  opens : List Nat
  /-- The openers with what closes them, in the order in which they are closed. -/
  pairs : List (Nat × Nat)
deriving Repr, DecidableEq

namespace Conditionals

def none : Conditionals := ⟨0, [], []⟩

def step (c : Conditionals) (t : Tree) : Conditionals :=
  match t.mark, c.opens with
  | .opens, opens => { c with seen := c.seen + 1, opens := c.seen :: opens }
  | .closes, opener :: outer => ⟨c.seen + 1, outer, c.pairs ++ [(opener, c.seen)]⟩
  | _, _ => { c with seen := c.seen + 1 }

def of (ts : List Tree) : Conditionals := ts.foldl step none

/-- Not more than `limit` openers are ever open at once. -/
def NestWithin (limit : Nat) (ts : List Tree) : Prop := ∀ n, (of (ts.take n)).opens.length ≤ limit

/-- Whether a sibling opens or closes a conditional of which the other end is there as well. -/
def Paired (c : Conditionals) (i : Nat) : Prop := ∃ q ∈ c.pairs, i = q.1 ∨ i = q.2

theorem of_concat (ts : List Tree) (t : Tree) : of (ts ++ [t]) = (of ts).step t := List.foldl_concat ..

/-- What a sibling does to the stack. -/
theorem step_cases (c : Conditionals) (t : Tree) :
    (t.mark = .opens ∧ c.step t = ⟨c.seen + 1, c.seen :: c.opens, c.pairs⟩) ∨
      (∃ opener outer, t.mark = .closes ∧ c.opens = opener :: outer ∧
        c.step t = ⟨c.seen + 1, outer, c.pairs ++ [(opener, c.seen)]⟩) ∨
      (t.mark ≠ .opens ∧ (t.mark = .closes → c.opens = []) ∧ c.step t = ⟨c.seen + 1, c.opens, c.pairs⟩) := by
  cases hm : t.mark with
  | opens => exact .inl ⟨rfl, by simp [step, hm]⟩
  | other => exact .inr (.inr ⟨by simp, by simp, by simp [step, hm]⟩)
  | closes =>
    cases ho : c.opens with
    | nil => exact .inr (.inr ⟨by simp, by simp, by simp [step, hm, ho]⟩)
    | cons opener outer => exact .inr (.inl ⟨opener, outer, rfl, rfl, by simp [step, hm, ho]⟩)

theorem pairs_step (c : Conditionals) (t : Tree) : c.pairs ⊆ (c.step t).pairs := by
  rcases c.step_cases t with ⟨-, hs⟩ | ⟨opener, outer, -, -, hs⟩ | ⟨-, -, hs⟩ <;> rw [hs]
  · exact List.Subset.refl _
  · exact List.subset_append_left _ _
  · exact List.Subset.refl _

theorem pairs_append (front back : List Tree) : (of front).pairs ⊆ (of (front ++ back)).pairs := by
  induction back using List.reverseRecOn with
  | nil => simp
  | append_singleton back t ih =>
    rw [← List.append_assoc, of_concat]
    exact List.Subset.trans ih (pairs_step _ t)

/-- What is known of the stack behind the siblings `ts`: whatever opens or closes inside of a pair is paired,
and above an open one everything is either open or paired. -/
structure Sound (ts : List Tree) (c : Conditionals) : Prop where
  seen : c.seen = ts.length
  opens : ∀ i ∈ c.opens, i < ts.length ∧ ts[i]?.map mark = some .opens ∧ ¬c.Paired i
  descending : c.opens.Pairwise (· > ·)
  pairs : ∀ q ∈ c.pairs, q.1 < q.2 ∧ q.2 < ts.length ∧ ts[q.1]?.map mark = some .opens
  inside : ∀ q ∈ c.pairs, ∀ i, q.1 < i → i < q.2 → ts[i]?.map mark ≠ some .other → c.Paired i
  above : ∀ o ∈ c.opens, ∀ i, o < i → i < ts.length → ts[i]?.map mark ≠ some .other → i ∈ c.opens ∨ c.Paired i

namespace Sound

variable {ts : List Tree} {c : Conditionals} {t : Tree}

theorem lt_of_paired (h : c.Sound ts) {i : Nat} (hi : c.Paired i) : i < ts.length := by
  obtain ⟨q, hq, hi⟩ := hi
  obtain ⟨hlt, hend, -⟩ := h.pairs q hq
  omega

theorem opens_kept (h : c.Sound ts) (t : Tree) :
    ∀ i ∈ c.opens, i < (ts ++ [t]).length ∧ (ts ++ [t])[i]?.map mark = some .opens ∧ ¬c.Paired i := by
  intro i hi
  obtain ⟨hlt, hmark, hleft⟩ := h.opens i hi
  exact ⟨by rw [List.length_append]; omega, by rwa [List.getElem?_append_left hlt], hleft⟩

theorem pairs_kept (h : c.Sound ts) (t : Tree) :
    ∀ q ∈ c.pairs, q.1 < q.2 ∧ q.2 < (ts ++ [t]).length ∧ (ts ++ [t])[q.1]?.map mark = some .opens := by
  intro q hq
  obtain ⟨hlt, hend, hmark⟩ := h.pairs q hq
  exact ⟨hlt, by rw [List.length_append]; omega, by rwa [List.getElem?_append_left (by omega)]⟩

theorem inside_kept (h : c.Sound ts) (t : Tree) : ∀ q ∈ c.pairs, ∀ i, q.1 < i → i < q.2 →
    (ts ++ [t])[i]?.map mark ≠ some .other → c.Paired i := by
  intro q hq i hlow hhigh hi
  rw [List.getElem?_append_left (Nat.lt_trans hhigh (h.pairs q hq).2.1)] at hi
  exact h.inside q hq i hlow hhigh hi

theorem passed (h : c.Sound ts) (hm : t.mark ≠ .opens) (hclose : t.mark = .closes → c.opens = []) :
    (⟨c.seen + 1, c.opens, c.pairs⟩ : Conditionals).Sound (ts ++ [t]) := by
  refine ⟨by simp [h.seen], h.opens_kept t, h.descending, h.pairs_kept t, h.inside_kept t, ?_⟩
  intro o ho i hlow hhigh hi
  rw [List.length_append] at hhigh
  rcases Nat.lt_succ_iff_lt_or_eq.1 hhigh with hlt | rfl
  · rw [List.getElem?_append_left hlt] at hi
    exact h.above o ho i hlow hlt hi
  · rw [List.getElem?_concat_length, Option.map_some] at hi
    cases hk : t.mark with
    | opens => exact absurd hk hm
    | closes =>
      rw [hclose hk] at ho
      cases ho
    | other => exact absurd (congrArg some hk) hi

theorem opened (h : c.Sound ts) (hm : t.mark = .opens) :
    (⟨c.seen + 1, c.seen :: c.opens, c.pairs⟩ : Conditionals).Sound (ts ++ [t]) := by
  rw [h.seen]
  refine ⟨by simp, ?_, ?_, h.pairs_kept t, h.inside_kept t, ?_⟩
  · have hmark : (ts ++ [t])[ts.length]?.map mark = some .opens := by
      rw [List.getElem?_concat_length, Option.map_some, hm]
    have hleft : ¬c.Paired ts.length := fun hp ↦ Nat.lt_irrefl _ (h.lt_of_paired hp)
    exact List.forall_mem_cons.2 ⟨⟨by simp, hmark, hleft⟩, h.opens_kept t⟩
  · exact List.pairwise_cons.2 ⟨fun i hi ↦ (h.opens i hi).1, h.descending⟩
  · intro o ho i hlow hhigh hi
    rw [List.length_append] at hhigh
    rcases Nat.lt_succ_iff_lt_or_eq.1 hhigh with hlt | rfl
    · rw [List.getElem?_append_left hlt] at hi
      rcases List.mem_cons.1 ho with rfl | ho
      · omega
      · exact (h.above o ho i hlow hlt hi).imp_left (List.mem_cons_of_mem _)
    · exact .inl (List.mem_cons_self ..)

theorem closed (h : c.Sound ts) {opener : Nat} {outer : List Nat} (ho : c.opens = opener :: outer) (t : Tree) :
    (⟨c.seen + 1, outer, c.pairs ++ [(opener, c.seen)]⟩ : Conditionals).Sound (ts ++ [t]) := by
  obtain ⟨hbelow, hdescending⟩ := List.pairwise_cons.1 (ho ▸ h.descending)
  have houter : ∀ i ∈ outer, i ∈ c.opens := fun i hi ↦ ho ▸ List.mem_cons_of_mem _ hi
  have hopener : opener < ts.length ∧ ts[opener]?.map mark = some .opens ∧ ¬c.Paired opener :=
    h.opens opener (ho ▸ List.mem_cons_self ..)
  have hpaired {i : Nat} (hi : c.Paired i) :
      Paired ⟨ts.length + 1, outer, c.pairs ++ [(opener, ts.length)]⟩ i := by
    obtain ⟨q, hq, hi⟩ := hi
    exact ⟨q, List.mem_append_left _ hq, hi⟩
  have hnew : (opener, ts.length) ∈ c.pairs ++ [(opener, ts.length)] := by simp
  rw [h.seen]
  refine ⟨by simp, fun i hi ↦ ?_, hdescending, ?_, ?_, fun o hin i hlow hhigh hi ↦ ?_⟩
  -- the openers left are further out than the one that is closed, so the new pair is not theirs
  · obtain ⟨hlt, hmark, hleft⟩ := h.opens_kept t i (houter i hi)
    refine ⟨hlt, hmark, ?_⟩
    rintro ⟨q, hq, hi'⟩
    rcases List.mem_append.1 hq with hq | hq
    · exact hleft ⟨q, hq, hi'⟩
    · cases List.mem_singleton.1 hq
      have := hbelow i hi
      omega
  · refine List.forall_mem_append.2 ⟨h.pairs_kept t, List.forall_mem_singleton.2 ⟨hopener.1, by simp, ?_⟩⟩
    rw [List.getElem?_append_left hopener.1]
    exact hopener.2.1
  · refine List.forall_mem_append.2 ⟨fun q hq i hlow hhigh hi ↦ hpaired (h.inside_kept t q hq i hlow hhigh hi), ?_⟩
    -- what stands above the closed opener was open or paired, and no other is open there
    refine List.forall_mem_singleton.2 fun i hlow hhigh hi ↦ ?_
    rw [List.getElem?_append_left hhigh] at hi
    rcases h.above opener (ho ▸ List.mem_cons_self ..) i hlow hhigh hi with hin | hin
    · rcases List.mem_cons.1 (ho ▸ hin) with rfl | hin
      · exact ⟨_, hnew, .inl rfl⟩
      · have := hbelow i hin
        omega
    · exact hpaired hin
  · rw [List.length_append] at hhigh
    rcases Nat.lt_succ_iff_lt_or_eq.1 hhigh with hlt | rfl
    · rw [List.getElem?_append_left hlt] at hi
      rcases h.above o (houter o hin) i hlow hlt hi with hmem | hmem
      · rcases List.mem_cons.1 (ho ▸ hmem) with rfl | hmem
        · exact .inr ⟨_, hnew, .inl rfl⟩
        · exact .inl hmem
      · exact .inr (hpaired hmem)
    · exact .inr ⟨_, hnew, .inr rfl⟩

end Sound

theorem of_sound (ts : List Tree) : (of ts).Sound ts := by
  induction ts using List.reverseRecOn with
  | nil => constructor <;> simp [of, none]
  | append_singleton ts t ih =>
    rw [of_concat]
    rcases (of ts).step_cases t with ⟨hm, hs⟩ | ⟨opener, outer, -, ho, hs⟩ | ⟨hm, hclose, hs⟩ <;> rw [hs]
    · exact ih.opened hm
    · exact ih.closed ho t
    · exact ih.passed hm hclose

theorem seen_of (ts : List Tree) : (of ts).seen = ts.length := (of_sound ts).seen

theorem length_opens_le (ts : List Tree) : (of ts).opens.length ≤ ts.length := by
  induction ts using List.reverseRecOn with
  | nil => exact Nat.zero_le _
  | append_singleton ts t ih =>
    rw [of_concat, List.length_append]
    rcases (of ts).step_cases t with ⟨-, hs⟩ | ⟨opener, outer, -, ho, hs⟩ | ⟨-, -, hs⟩ <;> rw [hs]
    · simpa using ih
    · rw [ho, List.length_cons] at ih
      exact Nat.le_add_right_of_le (Nat.le_of_succ_le ih)
    · exact Nat.le_add_right_of_le ih

end Conditionals

mutual

/-- The nodes from number `next` on that `t` has at its top, in the order in which they end. -/
def newNodes (next : Nat) : Tree → List Tree
  | node id head children =>
    if id < next then [] else newNodesAll next children ++ [node id head children]

def newNodesAll (next : Nat) : List Tree → List Tree
  | [] => []
  | t :: rest => newNodes next t ++ newNodesAll next rest

end

mutual

/-- What is left of `t` when the nodes from number `next` on at its top are taken away. -/
def ungroup (next : Nat) : Tree → List Tree
  | node id head children => if id < next then [node id head children] else ungroupAll next children

def ungroupAll (next : Nat) : List Tree → List Tree
  | [] => []
  | t :: rest => ungroup next t ++ ungroupAll next rest

end

/-- `us` are the siblings from the position `low` up to `high`, with one node for each outermost pair among
them. Its members are the two directives and the siblings between them, which have such nodes for the
pairs among them. -/
inductive Grouped (ts : List Tree) (pairs : List (Nat × Nat)) : Nat → Nat → List Tree → Prop where
  | nil (low : Nat) : Grouped ts pairs low low []
  | plain {low high : Nat} {t : Tree} {us : List Tree} (ht : ts[low]? = some t) (hp : ∀ q ∈ pairs, q.1 ≠ low)
      (hrest : Grouped ts pairs (low + 1) high us) : Grouped ts pairs low high (t :: us)
  | pair {low close high : Nat} {opener closer block : Tree} {inner us : List Tree} (hp : (low, close) ∈ pairs)
      (hopener : ts[low]? = some opener) (hcloser : ts[close]? = some closer)
      (hinner : Grouped ts pairs (low + 1) close inner)
      (hhead : block.head = NodeHead.plain .preprocessorBlock opener.start closer.stop)
      (hchildren : block.children = opener :: (inner ++ [closer]))
      (hrest : Grouped ts pairs (close + 1) high us) : Grouped ts pairs low high (block :: us)

/-- The node of a pair. -/
def IsBlock (ts : List Tree) (pairs : List (Nat × Nat)) (q : Nat × Nat) (block : Tree) : Prop :=
  ∃ opener inner closer, ts[q.1]? = some opener ∧ ts[q.2]? = some closer ∧
    Grouped ts pairs (q.1 + 1) q.2 inner ∧
    block.head = NodeHead.plain .preprocessorBlock opener.start closer.stop ∧
    block.children = opener :: (inner ++ [closer])

section

variable {next : Nat} {ts us vs : List Tree} {pairs : List (Nat × Nat)} {low mid high : Nat} {t : Tree}

theorem newNodesAll_eq (next : Nat) (ts : List Tree) : newNodesAll next ts = ts.flatMap (newNodes next) := by
  induction ts with
  | nil => rfl
  | cons t ts ih => rw [newNodesAll, ih, List.flatMap_cons]

theorem newNodes_old (h : t.id < next) : newNodes next t = [] := by
  cases t
  exact if_pos h

theorem newNodes_new (h : next ≤ t.id) : newNodes next t = t.children.flatMap (newNodes next) ++ [t] := by
  cases t
  rw [children, ← newNodesAll_eq]
  exact if_neg (Nat.not_lt.2 h)

theorem ungroupAll_eq (next : Nat) (ts : List Tree) : ungroupAll next ts = ts.flatMap (ungroup next) := by
  induction ts with
  | nil => rfl
  | cons t ts ih => rw [ungroupAll, ih, List.flatMap_cons]

theorem ungroup_old (h : t.id < next) : ungroup next t = [t] := by
  cases t
  exact if_pos h

theorem ungroup_new (h : next ≤ t.id) : ungroup next t = t.children.flatMap (ungroup next) := by
  cases t
  rw [children, ← ungroupAll_eq]
  exact if_neg (Nat.not_lt.2 h)

namespace Grouped

theorem append (h : Grouped ts pairs low mid us) (hv : Grouped ts pairs mid high vs) :
    Grouped ts pairs low high (us ++ vs) := by
  induction h with
  | nil => exact hv
  | plain ht hp _ ih => exact .plain ht hp (ih hv)
  | pair hp hopener hcloser hinner hhead hchildren _ _ ih =>
    exact .pair hp hopener hcloser hinner hhead hchildren (ih hv)

/-- What is in no pair stays where it is. -/
theorem mem_of_outside (h : Grouped ts pairs low high us) {i : Nat} (hlow : low ≤ i) (hhigh : i < high)
    (ht : ts[i]? = some t) (hout : ∀ q ∈ pairs, i < q.1 ∨ q.2 < i) : t ∈ us := by
  induction h with
  | nil => omega
  | plain hat _ _ ih =>
    rcases Nat.lt_or_eq_of_le hlow with hlt | rfl
    · exact List.mem_cons_of_mem _ (ih hlt hhigh)
    · cases hat.symm.trans ht
      exact List.mem_cons_self ..
  | pair hp _ _ _ _ _ _ _ ih =>
    have := hout _ hp
    exact List.mem_cons_of_mem _ (ih (by omega) hhigh)

end Grouped

/-- Siblings up to `high` while they are grouped: what is done, and for each open conditional the opener and
its members so far. -/
inductive Held (ts : List Tree) (pairs : List (Nat × Nat)) (done : List Tree) :
    List Nat → List (List Tree) → Nat → Prop where
  | nil {high : Nat} (h : Grouped ts pairs 0 high done.reverse) : Held ts pairs done [] [] high
  | cons {opener high : Nat} {opens : List Nat} {pending : List (List Tree)} {t : Tree} {inner : List Tree}
      (ht : ts[opener]? = some t) (hinner : Grouped ts pairs (opener + 1) high inner)
      (houter : Held ts pairs done opens pending opener) :
      Held ts pairs done (opener :: opens) ((inner.reverse ++ [t]) :: pending) high

namespace Held

variable {done : List Tree} {opens : List Nat} {pending : List (List Tree)} {g : Grouping} {u : Tree}

theorem length_eq (h : Held ts pairs done opens pending high) : opens.length = pending.length := by
  induction h with
  | nil => rfl
  | cons _ _ _ ih => rw [List.length_cons, List.length_cons, ih]

theorem add (h : Held ts pairs g.done opens g.pending mid) (hu : Grouped ts pairs mid high [u]) :
    Held ts pairs (g.add u).done opens (g.add u).pending high := by
  obtain ⟨done, pending, flat, next⟩ := g
  cases h with
  | nil h =>
    have h := h.append hu
    rw [← List.reverse_cons] at h
    exact .nil h
  | cons ht hinner houter =>
    have h := Held.cons ht (hinner.append hu) houter
    rwa [List.reverse_append, List.reverse_singleton, List.singleton_append, List.cons_append] at h

/-- In the end, openers that are still open are siblings like others. -/
theorem grouped (h : Held ts pairs done opens pending high) (hopens : ∀ o ∈ opens, ∀ q ∈ pairs, q.1 ≠ o) :
    Grouped ts pairs 0 high (done.reverse ++ (pending.reverse.map List.reverse).flatten) := by
  induction h with
  | nil h => simpa using h
  | cons ht hinner _ ih =>
    rw [List.forall_mem_cons] at hopens
    have h := (ih hopens.2).append (.plain ht hopens.1 hinner)
    simpa using h

end Held

end

namespace Grouping

variable {next : Nat} {ts members : List Tree} {outer : List (List Tree)} {pairs : List (Nat × Nat)}
  {c : Conditionals} {g : Grouping} {t : Tree}

theorem siblings_pending (hp : g.pending = members :: outer) :
    g.siblings = { g with pending := outer }.siblings ++ members.reverse := by
  simp [siblings, hp]

/-- Taking the members of new nodes for the nodes gives the siblings back. -/
theorem ungroup_step (hnext : next ≤ g.next) (ht : t.id < next) :
    (g.step t).siblings.flatMap (ungroup next) = g.siblings.flatMap (ungroup next) ++ [t] := by
  rcases g.step_cases t with ⟨hs, -⟩ | ⟨front, members, hg, hs, -⟩
  · rw [hs, List.flatMap_append, List.flatMap_singleton, ungroup_old ht]
  · have hblock : ungroup next (conditional g.next (members ++ [t])) = members.flatMap (ungroup next) ++ [t] := by
      rw [ungroup_new hnext, conditional, children, List.flatMap_append, List.flatMap_singleton, ungroup_old ht]
    rw [hs, hg, List.flatMap_append, List.flatMap_append, List.flatMap_singleton, hblock, List.append_assoc]

theorem next_le_step (g : Grouping) (t : Tree) : g.next ≤ (g.step t).next := by
  rcases g.step_cases t with ⟨-, hn⟩ | ⟨-, -, -, -, hn⟩ <;> omega

theorem ungroup_foldl (hnext : next ≤ g.next) (hts : ∀ t ∈ ts, t.id < next) :
    (ts.foldl step g).siblings.flatMap (ungroup next) = g.siblings.flatMap (ungroup next) ++ ts := by
  induction ts generalizing g with
  | nil => rw [List.foldl_nil, List.append_nil]
  | cons t ts ih =>
    rw [List.forall_mem_cons] at hts
    rw [List.foldl_cons, ih (Nat.le_trans hnext (g.next_le_step t)) hts.2, ungroup_step hnext hts.1,
      List.append_assoc, List.singleton_append]

/-- The grouping of siblings behind which the stack is `c`. The pairs of all siblings are `pairs`. -/
structure Follows (next : Nat) (ts : List Tree) (pairs : List (Nat × Nat)) (c : Conditionals) (g : Grouping) :
    Prop where
  flat : g.flat = 0
  counted : g.next = next + c.pairs.length
  held : Held ts pairs g.done c.opens g.pending c.seen
  blocks : List.Forall₂ (IsBlock ts pairs) c.pairs (g.siblings.flatMap (newNodes next))
  numbers : (g.siblings.flatMap (newNodes next)).map Tree.id = List.range' next c.pairs.length

namespace Follows

theorem opened (h : Follows next ts pairs c g) (ht : ts[c.seen]? = some t) (hold : t.id < next)
    (hm : t.mark = .opens) (hdepth : c.opens.length < maxDepth) :
    Follows next ts pairs ⟨c.seen + 1, c.seen :: c.opens, c.pairs⟩ (g.step t) := by
  have hlt : g.pending.length < maxDepth := h.held.length_eq ▸ hdepth
  have hstep : g.step t = { g with pending := [t] :: g.pending } := by simp [step, hm, hlt]
  have hnew : (g.step t).siblings.flatMap (newNodes next) = g.siblings.flatMap (newNodes next) := by
    rw [hstep, siblings_pending rfl, List.flatMap_append, List.reverse_singleton, List.flatMap_singleton,
      newNodes_old hold, List.append_nil]
  refine ⟨hstep ▸ h.flat, hstep ▸ h.counted, ?_, hnew ▸ h.blocks, hnew ▸ h.numbers⟩
  rw [hstep]
  exact .cons ht (.nil _) h.held

theorem passed (h : Follows next ts pairs c g) (ht : ts[c.seen]? = some t) (hold : t.id < next)
    (hm : t.mark ≠ .opens) (hclose : t.mark = .closes → c.opens = []) (hp : ∀ q ∈ pairs, q.1 ≠ c.seen) :
    Follows next ts pairs ⟨c.seen + 1, c.opens, c.pairs⟩ (g.step t) := by
  have hstep : g.step t = g.add t := by
    cases hk : t.mark with
    | opens => exact absurd hk hm
    | other => simp [step, hk]
    | closes =>
      have hlength := h.held.length_eq
      rw [hclose hk] at hlength
      simp [step, hk, h.flat, List.length_eq_zero_iff.1 hlength.symm]
  have hflat : (g.add t).flat = g.flat := by
    unfold add
    split <;> rfl
  have hnew : (g.step t).siblings.flatMap (newNodes next) = g.siblings.flatMap (newNodes next) := by
    rw [hstep, siblings_add, List.flatMap_append, List.flatMap_singleton, newNodes_old hold, List.append_nil]
  refine ⟨by rw [hstep, hflat, h.flat], by rw [hstep, next_add, h.counted], ?_, hnew ▸ h.blocks, hnew ▸ h.numbers⟩
  rw [hstep]
  exact h.held.add (.plain ht hp (.nil _))

theorem closed (h : Follows next ts pairs c g) (ht : ts[c.seen]? = some t) (hold : t.id < next)
    (hm : t.mark = .closes) {opener : Nat} {outer : List Nat} (ho : c.opens = opener :: outer)
    (hp : (opener, c.seen) ∈ pairs) :
    Follows next ts pairs ⟨c.seen + 1, outer, c.pairs ++ [(opener, c.seen)]⟩ (g.step t) := by
  have hheld := h.held
  rw [ho] at hheld
  generalize hpending : g.pending = pending at hheld
  cases hheld with
  | cons hopener hinner houter =>
    rename_i pending first inner
    -- the innermost members become a block of what is left of the grouping
    let rest : Grouping := { g with pending, next := g.next + 1 }
    let block := conditional g.next (first :: (inner ++ [t]))
    have hstep : g.step t = rest.add block := by
      simp [step, hm, h.flat, hpending, rest, block]
    have hflat : (rest.add block).flat = g.flat := by
      unfold add
      split <;> rfl
    have hsiblings : g.siblings = rest.siblings ++ (first :: inner) := by
      rw [siblings_pending hpending]
      simp [rest, siblings]
    have hlast : (first :: (inner ++ [t])).getLast? = some t := by
      rw [← List.cons_append, List.getLast?_concat]
    have hhead : block.head = NodeHead.plain .preprocessorBlock first.start t.stop := by
      simp only [block, conditional, head, hlast, List.head?_cons, Option.map_some, Option.getD_some]
    have hnew : (g.step t).siblings.flatMap (newNodes next) = g.siblings.flatMap (newNodes next) ++ [block] := by
      have hblock : newNodes next block = (first :: inner).flatMap (newNodes next) ++ [block] := by
        have hnumber : next ≤ g.next := h.counted ▸ Nat.le_add_right next _
        rw [newNodes_new hnumber]
        simp [block, conditional, children, newNodes_old hold]
      rw [hstep, siblings_add, hsiblings, List.flatMap_append, List.flatMap_append, List.flatMap_singleton, hblock,
        List.append_assoc]
    have hlength : (c.pairs ++ [(opener, c.seen)]).length = c.pairs.length + 1 := by
      rw [List.length_append, List.length_singleton]
    constructor
    case flat => rw [hstep, hflat, h.flat]
    case counted =>
      rw [hstep, next_add, hlength, ← Nat.add_assoc, ← h.counted]
    case held =>
      rw [hstep]
      exact Held.add (g := rest) houter (.pair hp hopener ht hinner hhead rfl (.nil _))
    case blocks =>
      rw [hnew]
      exact List.rel_append h.blocks (.cons ⟨first, inner, t, hopener, ht, hinner, hhead, rfl⟩ .nil)
    case numbers =>
      rw [hnew, List.map_append, h.numbers, hlength, List.range'_concat, Nat.one_mul, ← h.counted]
      rfl

theorem step (h : Follows next ts pairs c g) (ht : ts[c.seen]? = some t) (hold : t.id < next)
    (hdepth : (c.step t).opens.length ≤ maxDepth) (hpairs : (c.step t).pairs ⊆ pairs)
    (hp : t.mark ≠ .opens → ∀ q ∈ pairs, q.1 ≠ c.seen) : Follows next ts pairs (c.step t) (g.step t) := by
  rcases c.step_cases t with ⟨hm, hs⟩ | ⟨opener, outer, hm, ho, hs⟩ | ⟨hm, hclose, hs⟩ <;> rw [hs] at hdepth hpairs ⊢
  · exact h.opened ht hold hm hdepth
  · exact h.closed ht hold hm ho (hpairs (by simp))
  · exact h.passed ht hold hm hclose (hp hm)

end Follows

/-- The grouping goes along with the stack through all siblings. -/
theorem follows_take (hold : ∀ t ∈ ts, t.id < next) (hdepth : Conditionals.NestWithin maxDepth ts) {n : Nat}
    (hn : n ≤ ts.length) :
    Follows next ts (Conditionals.of ts).pairs (Conditionals.of (ts.take n)) (group next (ts.take n)) := by
  induction n with
  | zero => exact ⟨rfl, rfl, .nil (.nil 0), .nil, rfl⟩
  | succ n ih =>
    have hlt : n < ts.length := hn
    have hseen : (Conditionals.of (ts.take n)).seen = n := by
      rw [Conditionals.seen_of, List.length_take, Nat.min_eq_left (Nat.le_of_lt hlt)]
    have hget : ts[n]? = some ts[n] := List.getElem?_eq_getElem hlt
    have htake : ts.take (n + 1) = ts.take n ++ [ts[n]] := List.take_succ_eq_append_getElem hlt
    have hof := Conditionals.of_concat (ts.take n) ts[n]
    have hgroup : group next (ts.take n ++ [ts[n]]) = (group next (ts.take n)).step ts[n] := List.foldl_concat ..
    have hpairs := Conditionals.pairs_append (ts.take (n + 1)) (ts.drop (n + 1))
    have hlimit := hdepth (n + 1)
    rw [List.take_append_drop] at hpairs
    rw [htake, hof] at hpairs hlimit
    rw [htake, hof, hgroup]
    have hold' : ts[n].id < next := hold _ (List.getElem_mem hlt)
    refine (ih (Nat.le_of_lt hlt)).step (by rw [hseen, hget]) hold' hlimit hpairs fun hm q hq he ↦ ?_
    obtain ⟨-, -, hmark⟩ := (Conditionals.of_sound ts).pairs q hq
    rw [he, hseen, hget, Option.map_some] at hmark
    exact hm (Option.some.inj hmark)

end Grouping

/-- The siblings `us` have the nodes from number `next` on for the conditionals of `ts`. -/
structure Conditionals.Wrapped (next : Nat) (ts us : List Tree) : Prop where
  siblings : Grouped ts (of ts).pairs 0 ts.length us
  /-- The new nodes are those of the pairs, in the order in which they end. -/
  blocks : List.Forall₂ (IsBlock ts (of ts).pairs) (of ts).pairs (us.flatMap (newNodes next))
  numbers : (us.flatMap (newNodes next)).map Tree.id = List.range' next (of ts).pairs.length
  /-- A directive that opens or closes nothing is left alone. -/
  unpaired : ∀ i t, ts[i]? = some t → t.mark ≠ .other → ¬(of ts).Paired i → t ∈ us

/-- Grouping matches conditional directives with a stack and loses nothing. Where the nesting is too deep to
be followed, it still loses nothing. -/
theorem group_paired {next : Nat} {ts : List Tree} (hold : ∀ t ∈ ts, t.id < next) :
    (Conditionals.NestWithin maxDepth ts → Conditionals.Wrapped next ts (group next ts).siblings) ∧
      (group next ts).siblings.flatMap (ungroup next) = ts := by
  refine ⟨fun hdepth ↦ ?_, Grouping.ungroup_foldl (g := ⟨[], [], 0, next⟩) (Nat.le_refl _) hold⟩
  have hsound := Conditionals.of_sound ts
  have h := Grouping.follows_take hold hdepth (Nat.le_refl _)
  rw [List.take_length] at h
  have hheld := h.held.grouped fun o ho q hq he ↦ (hsound.opens o ho).2.2 ⟨q, hq, .inl he.symm⟩
  rw [Conditionals.seen_of] at hheld
  refine ⟨hheld, h.blocks, h.numbers, fun i t ht hm hi ↦ ?_⟩
  have hlt : i < ts.length := (List.getElem?_eq_some_iff.1 ht).1
  refine hheld.mem_of_outside (Nat.zero_le i) hlt ht fun q hq ↦ ?_
  -- a directive inside of a pair would be paired as well
  by_contra hin
  have hmark : ts[i]?.map mark ≠ some .other := by
    rw [ht, Option.map_some]
    exact fun he ↦ hm (Option.some.inj he)
  have hends : i ≠ q.1 ∧ i ≠ q.2 := ⟨fun he ↦ hi ⟨q, hq, .inl he⟩, fun he ↦ hi ⟨q, hq, .inr he⟩⟩
  exact hi (hsound.inside q hq i (by omega) (by omega) hmark)

/-- Two nested pairs between a stray `#endif` and an `#ifndef` that is never closed. -/
theorem group_paired_nested :
    let directive (id : Nat) (name : String) : Tree :=
      node id { NodeHead.plain .directive id (id + 1) with directive := some name } []
    let ts := [directive 1 "endif", directive 2 "if", directive 3 "ifdef", directive 4 "include",
      directive 5 "endif", directive 6 "endif", directive 7 "ifndef"]
    (Conditionals.of ts).pairs = [(2, 4), (1, 5)] ∧ (∀ t ∈ ts, t.id < 8) ∧ Conditionals.NestWithin maxDepth ts ∧
      Conditionals.Wrapped 8 ts (group 8 ts).siblings ∧ (group 8 ts).siblings.flatMap (ungroup 8) = ts := by
  intro directive ts
  have hold : ∀ t ∈ ts, t.id < 8 := by simp [ts, directive, id]
  have hdepth : Conditionals.NestWithin maxDepth ts := by
    intro n
    have hle : (ts.take n).length ≤ 7 := List.length_take_le' n ts
    exact Nat.le_trans (Conditionals.length_opens_le _) (Nat.le_trans hle (by decide))
  obtain ⟨hwrapped, hflat⟩ := group_paired hold
  exact ⟨by decide, hold, hdepth, hwrapped hdepth, hflat⟩

end CodeStyle.Tree
