import CodeStyle.Outline.Tree
import Mathlib.Data.List.Perm.Basic
import Mathlib.Tactic.Common

/-!
Walking a tree meets every node once, below its parent. The nodes of a tree are its root and the
children of its nodes.
-/

namespace CodeStyle.Tree

theorem induct {motive : Tree → Prop}
    (node : ∀ id head children, (∀ c ∈ children, motive c) → motive (.node id head children))
    (t : Tree) : motive t := by
  cases t with
  | node id head children => exact node id head children fun c hc ↦ induct node c
termination_by sizeOf t
decreasing_by
  have := List.sizeOf_lt_of_mem hc
  simp
  omega

theorem visitsAll_eq_flatMap (above : List Tree) (ts : List Tree) :
    visitsAll above ts = ts.flatMap (visits above) := by
  induction ts with
  | nil => rfl
  | cons t ts ih => rw [visitsAll, ih, List.flatMap_cons]

theorem visits_eq_cons (above : List Tree) (t : Tree) :
    t.visits above = ⟨t, above⟩ :: t.children.flatMap (visits (t :: above)) := by
  cases t
  rw [visits, visitsAll_eq_flatMap]
  rfl

theorem map_tree_visits (above : List Tree) (t : Tree) :
    (t.visits above).map Visit.tree = t.preorder := by
  induction t using induct generalizing above with
  | node id head children ih =>
    have hc (above : List Tree) : ∀ c ∈ children, (c.visits above).map Visit.tree = c.preorder :=
      fun c hc ↦ ih c hc above
    rw [preorder, visits_eq_cons, visits_eq_cons [], List.map_cons, List.map_cons, List.map_flatMap,
      List.map_flatMap]
    exact congrArg _ ((List.flatMap_congr (hc _)).trans (List.flatMap_congr (hc _)).symm)

theorem preorder_eq_cons (t : Tree) : t.preorder = t :: t.children.flatMap preorder := by
  rw [preorder, visits_eq_cons, List.map_cons, List.map_flatMap]
  simp only [map_tree_visits]

theorem mem_preorder_iff {t u : Tree} :
    u ∈ t.preorder ↔ u = t ∨ ∃ c ∈ t.children, u ∈ c.preorder := by
  rw [preorder_eq_cons, List.mem_cons, List.mem_flatMap]

theorem self_mem_preorder (t : Tree) : t ∈ t.preorder := mem_preorder_iff.2 (.inl rfl)

/-- A visit below the first one is that of a child of a node which is visited itself. -/
theorem mem_visits {above : List Tree} {t : Tree} {v : Visit} (hv : v ∈ t.visits above) :
    v = ⟨t, above⟩ ∨ ∃ p rest, v.above = p :: rest ∧ v.tree ∈ p.children ∧
      ⟨p, rest⟩ ∈ t.visits above := by
  induction t using induct generalizing above with
  | node id head children ih =>
    rw [visits_eq_cons] at hv ⊢
    rcases List.mem_cons.1 hv with rfl | hv
    · exact .inl rfl
    · obtain ⟨c, hc, hv⟩ := List.mem_flatMap.1 hv
      rcases ih c hc hv with rfl | ⟨p, rest, hp, hm, hvisit⟩
      · exact .inr ⟨_, above, rfl, hc, List.mem_cons_self ..⟩
      · exact .inr ⟨p, rest, hp, hm, List.mem_cons_of_mem _ (List.mem_flatMap.2 ⟨c, hc, hvisit⟩)⟩

/-- The nodes of a tree are its root and the children of its nodes, each as often. -/
theorem preorder_perm (t : Tree) : t.preorder.Perm (t :: t.preorder.flatMap Tree.children) := by
  induction t using induct with
  | node id head children ih =>
    rw [preorder_eq_cons, List.flatMap_cons]
    refine List.Perm.cons _ ?_
    have hsplit := List.map_append_flatMap_perm children (fun c ↦ c) fun c ↦
      c.preorder.flatMap Tree.children
    rw [List.map_id', ← List.flatMap_assoc] at hsplit
    exact (List.Perm.flatMap_left children ih).trans hsplit.symm

theorem child_mem_preorder {root t c : Tree} (ht : t ∈ root.preorder) (hc : c ∈ t.children) :
    c ∈ root.preorder :=
  root.preorder_perm.mem_iff.2 (List.mem_cons_of_mem _ (List.mem_flatMap.2 ⟨t, ht, hc⟩))

end CodeStyle.Tree
