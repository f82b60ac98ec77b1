import CodeStyle.Proofs.Grouping
import Mathlib.Data.List.Nodup

/-!
The shape of the tree of a file: its nodes are nested in the order of their tokens, each has a number
and a parent of its own, and the way up from any node ends at the root.
-/

theorem CodeStyle.find?_of_nodup {α β : Type} [BEq β] [LawfulBEq β] {f : α → β} {l : List α} {a : α}
    (hn : (l.map f).Nodup) (ha : a ∈ l) : l.find? (f · == f a) = some a := by
  obtain ⟨before, after, rfl⟩ := List.append_of_mem ha
  rw [List.map_append, List.map_cons, List.nodup_middle, List.nodup_cons, ← List.map_append] at hn
  refine List.find?_eq_some_iff_append.2 ⟨beq_self_eq_true _, before, after, rfl, fun b hb ↦ ?_⟩
  have hne : f b ≠ f a := fun he ↦ hn.1 (he ▸ List.mem_map_of_mem (List.mem_append_left _ hb))
  simpa using hne

namespace CodeStyle.Tree

namespace Within

variable {P : NodeHead → Prop} {low high : Nat} {t u : Tree} {ts : List Tree}

/-- Every node under nested siblings lies in their range, is not empty and is nested itself. -/
theorem of_mem (h : Within P low high ts) (ht : t ∈ ts) (hu : u ∈ t.preorder) :
    low ≤ u.start ∧ u.start < u.stop ∧ u.stop ≤ high ∧ P u.head ∧
      Within P u.start u.stop u.children := by
  induction h generalizing t with
  | nil => cases ht
  | cons hlow hne hP hinner hrest ihInner ihRest =>
    have hle := hrest.le
    rcases List.mem_cons.1 ht with rfl | ht
    · rcases mem_preorder_iff.1 hu with rfl | ⟨c, hc, hu⟩
      · exact ⟨hlow, hne, hle, hP, hinner⟩
      · obtain ⟨h₁, h₂, h₃, hrest⟩ := ihInner hc hu
        exact ⟨Nat.le_trans hlow h₁, h₂, Nat.le_trans h₃ hle, hrest⟩
    · obtain ⟨h₁, h₂, h₃, hrest⟩ := ihRest ht hu
      exact ⟨by omega, h₂, h₃, hrest⟩

theorem bounds (h : Within P low high ts) : ∀ t ∈ ts, low ≤ t.start ∧ t.stop ≤ high := by
  intro t ht
  obtain ⟨h₁, -, h₂, -⟩ := h.of_mem ht (self_mem_preorder t)
  exact ⟨h₁, h₂⟩

theorem pairwise (h : Within P low high ts) : ts.Pairwise fun a b ↦ a.stop ≤ b.start := by
  induction h with
  | nil => exact .nil
  | cons _ _ _ _ hrest _ ih => exact .cons (fun t ht ↦ (hrest.bounds t ht).1) ih

/-- The nodes under nested siblings come in the order of their starts. -/
theorem starts_sorted (h : Within P low high ts) :
    ((ts.flatMap preorder).map Tree.start).Pairwise (· ≤ ·) := by
  induction h with
  | nil => exact .nil
  | cons hlow hne hP hinner hrest ihInner ihRest =>
    rename_i low high id head children rest
    have inner : ∀ s ∈ (children.flatMap preorder).map Tree.start, head.start ≤ s ∧ s < head.stop := by
      intro s hs
      obtain ⟨u, hu, rfl⟩ := List.mem_map.1 hs
      obtain ⟨c, hc, hu⟩ := List.mem_flatMap.1 hu
      obtain ⟨h₁, h₂, h₃, -⟩ := hinner.of_mem hc hu
      exact ⟨h₁, by omega⟩
    have later : ∀ s ∈ (rest.flatMap preorder).map Tree.start, head.stop ≤ s := by
      intro s hs
      obtain ⟨u, hu, rfl⟩ := List.mem_map.1 hs
      obtain ⟨c, hc, hu⟩ := List.mem_flatMap.1 hu
      exact (hrest.of_mem hc hu).1
    rw [List.flatMap_cons, preorder_eq_cons, List.cons_append, List.map_cons, List.map_append]
    refine .cons (fun s hs ↦ ?_) (List.pairwise_append.2 ⟨ihInner, ihRest, fun s hs s' hs' ↦ ?_⟩)
    · rcases List.mem_append.1 hs with hs | hs
      · exact (inner s hs).1
      · exact Nat.le_trans (Nat.le_of_lt hne) (later s hs)
    · exact Nat.le_trans (Nat.le_of_lt (inner s hs).2) (later s' hs')

end Within

/-- The number of the parent of the node with the given number. -/
def parentOf (root : Tree) (id : Nat) : Option Nat :=
  ((root.visits []).find? (·.tree.id == id)).bind fun v ↦ v.parent.map Tree.id

/-- The number of the node that is `n` steps up. -/
def climb (root : Tree) : Nat → Nat → Option Nat
  | 0, id => some id
  | n + 1, id => (root.parentOf id).bind (root.climb n)

section

variable {root : Tree} {v : Visit}

theorem find_visit (hn : (root.preorder.map Tree.id).Nodup) (hv : v ∈ root.visits []) :
    (root.visits []).find? (·.tree.id == v.tree.id) = some v := by
  rw [preorder, List.map_map] at hn
  exact find?_of_nodup hn hv

theorem parentOf_eq (hn : (root.preorder.map Tree.id).Nodup) (hv : v ∈ root.visits []) :
    root.parentOf v.tree.id = v.parent.map Tree.id := by
  rw [parentOf, find_visit hn hv, Option.bind_some]

/-- The way up from a node has as many steps as the node has nodes above it, and ends at the root. -/
theorem climb_depth (hn : (root.preorder.map Tree.id).Nodup) (hv : v ∈ root.visits []) :
    root.climb v.depth v.tree.id = some root.id := by
  induction ha : v.above generalizing v with
  | nil =>
    rcases mem_visits hv with rfl | ⟨p, rest, hp, -⟩
    · rfl
    · rw [ha] at hp
      cases hp
  | cons p rest ih =>
    rcases mem_visits hv with rfl | ⟨p', rest', hp, -, hvisit⟩
    · cases ha
    · obtain ⟨rfl, rfl⟩ := List.cons.inj (ha.symm.trans hp)
      have hup := ih hvisit rfl
      have hparent : root.parentOf v.tree.id = some p.id := by
        rw [parentOf_eq hn hv, Visit.parent, ha, List.head?_cons, Option.map_some]
      rw [Visit.depth, ha, List.length_cons, climb, hparent, Option.bind_some]
      exact hup

/-- A node other than the root stands in one list of children, and once there. -/
theorem count_children (hn : (root.preorder.map Tree.id).Nodup) {t : Tree} (ht : t ∈ root.preorder)
    (hne : t.id ≠ root.id) : ((root.preorder.flatMap Tree.children).map Tree.id).count t.id = 1 := by
  have hperm := root.preorder_perm.map Tree.id
  rw [List.map_cons] at hperm
  have hmem := hperm.mem_iff.1 (List.mem_map_of_mem ht)
  refine List.count_eq_one_of_mem (List.nodup_cons.1 (hperm.nodup_iff.1 hn)).2 ?_
  exact (List.mem_cons.1 hmem).resolve_left hne

theorem count_root (hn : (root.preorder.map Tree.id).Nodup) :
    ((root.preorder.flatMap Tree.children).map Tree.id).count root.id = 0 := by
  have hperm := root.preorder_perm.map Tree.id
  rw [List.map_cons] at hperm
  exact List.count_eq_zero.2 (List.nodup_cons.1 (hperm.nodup_iff.1 hn)).1

end

theorem ofOutline_within {P : NodeHead → Prop} {low high : Nat}
    (hP : ∀ start stop, P (NodeHead.plain .preprocessorBlock start stop)) {head : NodeHead}
    {os : List Outline} (h : Outline.Within P low high os) :
    Within P low high (ofOutline (.node head os)).children :=
  group_within hP (regroupAll_within hP (numberAll_within h _) _) _

/-- The tree that is built over tokens. -/
theorem within_ofFoci (tokens : List Token) :
    Within (NodeHead.Named (· ∈ Focus.all tokens)) 0 tokens.length
      (ofOutline (Outline.ofFoci (Focus.all tokens)).1).children := by
  refine ofOutline_within (fun _ _ ↦ by simp [NodeHead.Named, NodeHead.plain]) ?_
  have h := (Outline.forest_sound (Q := (· ∈ Focus.all tokens)) 0 false false
    (Focus.all_consecutive tokens) fun _ hf ↦ hf).nodes
  rwa [Nat.zero_add, Focus.length_all] at h

section

variable {tokens : List Token} {t : Tree}

theorem within_node (ht : t ∈ (ofOutline (Outline.ofFoci (Focus.all tokens)).1).preorder) :
    Within (NodeHead.Named (· ∈ Focus.all tokens)) t.start t.stop t.children := by
  have hw := within_ofFoci tokens
  rcases mem_preorder_iff.1 ht with rfl | ⟨c, hc, ht⟩
  · rwa [← Focus.length_all tokens] at hw
  · exact (hw.of_mem hc ht).2.2.2.2

/-- A node other than the root has tokens, all of them in the file, and is named by an identifier if at
all. -/
theorem range_node (ht : t ∈ (ofOutline (Outline.ofFoci (Focus.all tokens)).1).preorder)
    (hne : t ≠ ofOutline (Outline.ofFoci (Focus.all tokens)).1) :
    t.start < t.stop ∧ t.stop ≤ tokens.length ∧ t.head.Named (· ∈ Focus.all tokens) := by
  obtain ⟨c, hc, ht⟩ := (mem_preorder_iff.1 ht).resolve_left hne
  obtain ⟨-, hlt, hle, hP, -⟩ := (within_ofFoci tokens).of_mem hc ht
  exact ⟨hlt, hle, hP⟩

end

/-- What is promised of the tree of a file. -/
structure WellFormed (root : Tree) : Prop where
  nonempty : ∀ t ∈ root.preorder, t.id ≠ root.id → t.start < t.stop
  inside : ∀ t ∈ root.preorder, ∀ c ∈ t.children, t.start ≤ c.start ∧ c.stop ≤ t.stop
  apart : ∀ t ∈ root.preorder, t.children.Pairwise fun a b ↦ a.stop ≤ b.start
  /-- A node other than the root stands once in one list of children, that of its parent. -/
  once : ∀ v ∈ root.visits [], v.tree.id ≠ root.id →
    ((root.preorder.flatMap Tree.children).map Tree.id).count v.tree.id = 1 ∧
      ∃ p ∈ root.preorder, v.parent = some p ∧ v.tree ∈ p.children
  root_apart : ((root.preorder.flatMap Tree.children).map Tree.id).count root.id = 0 ∧
    root.parentOf root.id = none
  numbered : (root.preorder.map Tree.id).Perm (List.range root.preorder.length)
  ordered : (root.preorder.map Tree.start).Pairwise (· ≤ ·)
  climbs : ∀ t ∈ root.preorder, ∃ n, root.climb n t.id = some root.id

end CodeStyle.Tree
