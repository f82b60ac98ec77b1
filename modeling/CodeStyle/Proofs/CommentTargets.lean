import CodeStyle.Proofs.TreeShape
import CodeStyle.Token.Lexer
import Mathlib.Data.List.DropRight
import Mathlib.Data.List.Flatten

/-!
What comments describe. A comment block describes the next sibling that is no comment, and its parent if there is
none. So the comments that describe a node are those which stand right before it, and the leading comment is the
last of them that stands by itself.
-/

namespace CodeStyle.Tree

section

variable {root p t c : Tree} {front run before after : List Tree}

theorem siblings_sublist (ht : t ∈ root.preorder) : (t :: t.children).Sublist root.preorder := by
  induction root using induct with
  | node id head children ih =>
    rw [preorder_eq_cons]
    rcases mem_preorder_iff.1 ht with rfl | ⟨c, hc, ht⟩
    · have hchildren : (children.flatMap fun c ↦ [c]).Sublist (children.flatMap preorder) :=
        List.Sublist.flatMap_right _ fun c _ ↦ List.singleton_sublist.2 (self_mem_preorder c)
      rw [List.flatMap_singleton'] at hchildren
      exact hchildren.cons_cons _
    · exact ((ih c hc ht).trans (List.sublist_flatten_of_mem (List.mem_map_of_mem hc))).cons _

/-- A node and its children have numbers of their own. -/
def Apart (p : Tree) : Prop := ((p :: p.children).map Tree.id).Nodup

theorem apart_of_nodup (hn : (root.preorder.map Tree.id).Nodup) (hp : p ∈ root.preorder) : p.Apart :=
  hn.sublist ((siblings_sublist hp).map Tree.id)

namespace Apart

theorem parent_ne (h : p.Apart) (hc : c ∈ p.children) : p.id ≠ c.id := by
  intro he
  exact (List.nodup_cons.1 h).1 (he ▸ List.mem_map_of_mem hc)

theorem sibling_ne (h : p.Apart) (hsplit : p.children = before ++ t :: after) (hc : c ∈ before ++ after) :
    c.id ≠ t.id := by
  have hn := (List.nodup_cons.1 h).2
  rw [hsplit, List.map_append, List.map_cons, List.nodup_middle, ← List.map_append] at hn
  intro he
  exact (List.nodup_cons.1 hn).1 (he ▸ List.mem_map_of_mem hc)

/-- The number of a comment tells where it stands, and so which siblings come behind it. -/
theorem describedBy_eq (h : p.Apart) (hsplit : p.children = before ++ c :: after) :
    p.describedBy c = (after.find? (·.kind != .commentBlock)).getD p := by
  have hbefore : ∀ b ∈ before, (b.id != c.id) = true := fun b hb ↦
    bne_iff_ne.2 (h.sibling_ne hsplit (List.mem_append_left _ hb))
  have hdrop : p.children.dropWhile (·.id != c.id) = c :: after := by
    rw [hsplit, List.dropWhile_append_of_pos hbefore, List.dropWhile_cons_of_neg (by simp)]
  rw [describedBy, hdrop]

end Apart

/-- Where `t` stands among the children of `p`: right behind the comment blocks `run`, before which there is something
else or nothing. -/
structure Placed (p t : Tree) (front run after : List Tree) : Prop where
  children : p.children = front ++ (run ++ t :: after)
  comments : ∀ c ∈ run, c.kind = .commentBlock
  maximal : ∀ c ∈ front.getLast?, c.kind ≠ .commentBlock

theorem exists_placed (ht : t ∈ p.children) : ∃ front run after, p.Placed t front run after := by
  obtain ⟨before, after, hsplit⟩ := List.append_of_mem ht
  refine ⟨before.rdropWhile (·.kind == .commentBlock), before.rtakeWhile (·.kind == .commentBlock), after, ?_, ?_, ?_⟩
  · rw [← List.append_assoc, List.rdropWhile_append_rtakeWhile, hsplit]
  · intro c hc
    simpa using List.mem_rtakeWhile_imp hc
  · intro c hc
    obtain ⟨hne, rfl⟩ := List.mem_getLast?_eq_getLast hc
    simpa using List.rdropWhile_last_not _ before hne

namespace Placed

theorem describes (h : p.Placed t front run after) (hp : p.Apart) (ht : t.kind ≠ .commentBlock) (hc : c ∈ run) :
    p.describedBy c = t := by
  obtain ⟨run₁, run₂, rfl⟩ := List.append_of_mem hc
  have hsplit : p.children = (front ++ run₁) ++ c :: (run₂ ++ t :: after) := by simp [h.children]
  have hnone : run₂.find? (·.kind != .commentBlock) = none := by
    rw [List.find?_eq_none]
    intro b hb
    simpa using h.comments b (by simp [hb])
  rw [hp.describedBy_eq hsplit, List.find?_append, hnone, List.find?_cons_of_pos (by simpa using ht)]
  rfl

theorem not_describes_front (h : p.Placed t front run after) (hp : p.Apart) (hc : c ∈ front)
    (hkind : c.kind = .commentBlock) : (p.describedBy c).id ≠ t.id := by
  obtain ⟨front₁, front₂, rfl⟩ := List.append_of_mem hc
  have hsplit : p.children = front₁ ++ c :: (front₂ ++ (run ++ t :: after)) := by simp [h.children]
  -- the last sibling before the run is no comment, so the search ends there or earlier
  obtain ⟨last, hlast, hne⟩ : ∃ last ∈ front₂, last.kind ≠ .commentBlock := by
    cases hlast : front₂.getLast? with
    | none =>
      have hnil := List.getLast?_eq_none_iff.1 hlast
      exact absurd hkind (h.maximal c (by simp [hnil]))
    | some last =>
      refine ⟨last, List.mem_of_getLast? hlast, h.maximal last ?_⟩
      simp [List.getLast?_append, List.getLast?_cons, hlast]
  have hsome : (front₂.find? (·.kind != .commentBlock)).isSome = true :=
    List.find?_isSome.2 ⟨last, hlast, by simpa using hne⟩
  obtain ⟨next, hnext⟩ := Option.isSome_iff_exists.1 hsome
  have hmem := List.mem_of_find?_eq_some hnext
  rw [hp.describedBy_eq hsplit, List.find?_append, hnext]
  have htarget : p.children = (front₁ ++ c :: front₂ ++ run) ++ t :: after := by simp [h.children]
  exact hp.sibling_ne htarget (by simp [hmem])

theorem not_describes_after (h : p.Placed t front run after) (hp : p.Apart) (hc : c ∈ after) :
    (p.describedBy c).id ≠ t.id := by
  obtain ⟨after₁, after₂, rfl⟩ := List.append_of_mem hc
  have hsplit : p.children = (front ++ (run ++ t :: after₁)) ++ c :: after₂ := by simp [h.children]
  rw [hp.describedBy_eq hsplit]
  cases hnext : after₂.find? (·.kind != .commentBlock) with
  | none => exact hp.parent_ne (by simp [h.children])
  | some next =>
    have hmem := List.mem_of_find?_eq_some hnext
    have htarget : p.children = (front ++ run) ++ t :: (after₁ ++ c :: after₂) := by simp [h.children]
    exact hp.sibling_ne htarget (by simp [hmem])

/-- The nearest comment that describes a node is the last of the run before it that stands by itself. -/
theorem commentOn_eq (h : p.Placed t front run after) (hp : p.Apart) (ht : t.kind ≠ .commentBlock) :
    p.commentOn t = (run.filter fun c ↦ !c.head.trailing).getLast? := by
  have hfront : front.filter (fun c ↦ c.kind == .commentBlock && !c.head.trailing && (p.describedBy c).id == t.id) =
      [] := by
    rw [List.filter_eq_nil_iff]
    intro c hc hq
    simp only [Bool.and_eq_true, beq_iff_eq] at hq
    exact h.not_describes_front hp hc hq.1.1 hq.2
  have hrun : run.filter (fun c ↦ c.kind == .commentBlock && !c.head.trailing && (p.describedBy c).id == t.id) =
      run.filter fun c ↦ !c.head.trailing := by
    refine List.filter_congr fun c hc ↦ ?_
    rw [h.comments c hc, h.describes hp ht hc]
    simp
  have hafter : (t :: after).filter
      (fun c ↦ c.kind == .commentBlock && !c.head.trailing && (p.describedBy c).id == t.id) = [] := by
    rw [List.filter_eq_nil_iff]
    intro c hc hq
    simp only [Bool.and_eq_true, beq_iff_eq] at hq
    rcases List.mem_cons.1 hc with rfl | hc
    · exact ht hq.1.1
    · exact h.not_describes_after hp hc hq.2
  rw [commentOn, ← List.getLast?_filter, h.children, List.filter_append, List.filter_append, hfront, hrun, hafter,
    List.nil_append, List.append_nil]

end Placed

end

/-- A node of a file that is no comment is led by the nearest comment that stands by itself, of those right before it.
A comment of a file describes the first sibling behind it that is no comment, or else its parent. -/
theorem comments_nearest (tokens : List Token) {v : Visit}
    (hv : v ∈ (ofOutline (Outline.ofFoci (Focus.all tokens)).1).visits []) :
    (v.tree.kind ≠ .commentBlock → v.tree.id ≠ (ofOutline (Outline.ofFoci (Focus.all tokens)).1).id →
      ∃ p front run after, v.parent = some p ∧ p.Placed v.tree front run after ∧
        v.leadingComment = (run.filter fun c ↦ !c.head.trailing).getLast?) ∧
    (v.tree.kind = .commentBlock →
      ∃ p before after, v.parent = some p ∧ p.children = before ++ v.tree :: after ∧
        v.commentTarget = some ((after.find? (·.kind != .commentBlock)).getD p)) := by
  obtain ⟨k, hk⟩ := numbers_ofOutline (Outline.ofFoci (Focus.all tokens)).1
  have hn := hk.nodup_iff.2 List.nodup_range
  have hroot : (ofOutline (Outline.ofFoci (Focus.all tokens)).1).kind = .translationUnit := rfl
  rcases mem_visits hv with rfl | ⟨p, rest, habove, hmem, hp⟩
  · exact ⟨fun _ hne ↦ absurd rfl hne, fun hkind ↦ by rw [hroot] at hkind; cases hkind⟩
  have hparent : v.parent = some p := by rw [Visit.parent, habove, List.head?_cons]
  have hapart : p.Apart := apart_of_nodup hn (List.mem_map_of_mem hp)
  constructor
  · intro hkind _
    obtain ⟨front, run, after, hplaced⟩ := exists_placed hmem
    refine ⟨p, front, run, after, hparent, hplaced, ?_⟩
    rw [Visit.leadingComment, hparent, Option.bind_some, hplaced.commentOn_eq hapart hkind]
  · intro hkind
    obtain ⟨before, after, hsplit⟩ := List.append_of_mem hmem
    refine ⟨p, before, after, hparent, hsplit, ?_⟩
    rw [Visit.commentTarget, hkind, if_pos (beq_self_eq_true _), hparent, Option.map_some,
      hapart.describedBy_eq hsplit]

/-- A comment beside code, an empty line, and a comment before a declaration. -/
theorem comments_nearest_declaration :
    let tree := ofOutline (Outline.ofFoci (Focus.all (Token.tokenize (Text.bytesOf "int w; //t\n\n//b\nint x;\n")))).1
    (∃ v ∈ tree.visits [], v.tree.kind = .declaration ∧ v.tree.id ≠ tree.id ∧ v.leadingComment.isSome = true ∧
      ∃ p front run after, v.parent = some p ∧ p.Placed v.tree front run after ∧
        v.leadingComment = (run.filter fun c ↦ !c.head.trailing).getLast?) ∧
    ∃ v ∈ tree.visits [], v.tree.kind = .commentBlock ∧
      ∃ p before after, v.parent = some p ∧ p.children = before ++ v.tree :: after ∧
        v.commentTarget = some ((after.find? (·.kind != .commentBlock)).getD p) := by
  intro tree
  obtain ⟨v, hv, hkind, hid, hlead⟩ : ∃ v ∈ tree.visits [], v.tree.kind = .declaration ∧ v.tree.id ≠ tree.id ∧
      v.leadingComment.isSome = true := by decide +kernel
  obtain ⟨w, hw, hcomment⟩ : ∃ w ∈ tree.visits [], w.tree.kind = .commentBlock := by decide +kernel
  refine ⟨⟨v, hv, hkind, hid, hlead, (comments_nearest _ hv).1 ?_ hid⟩, w, hw, hcomment, ?_⟩
  · rw [hkind]
    decide
  · exact (comments_nearest _ hw).2 hcomment

end CodeStyle.Tree
