import CodeStyle.Proofs.Nesting
import CodeStyle.Proofs.Visits

/-!
Numbering and grouping keep a tree nested and give every node a number of its own. All that grouping
does with siblings is said by `step_cases`: a sibling is added behind the others, or it closes a
conditional that takes the last of them in.
-/

namespace CodeStyle.Tree

/-- Nested siblings, as in an outline. -/
inductive Within (P : NodeHead → Prop) : Nat → Nat → List Tree → Prop where
  | nil {low high : Nat} (h : low ≤ high) : Within P low high []
  | cons {low high id : Nat} {head : NodeHead} {children rest : List Tree} (hlow : low ≤ head.start)
      (hne : head.start < head.stop) (hP : P head) (hinner : Within P head.start head.stop children)
      (hrest : Within P head.stop high rest) : Within P low high (node id head children :: rest)

namespace Within

variable {P : NodeHead → Prop} {low mid high : Nat} {t : Tree} {ts us : List Tree}

theorem append (h : Within P low mid ts) (hu : Within P mid high us) :
    Within P low high (ts ++ us) := by
  induction h with
  | nil hle =>
    cases hu with
    | nil h => exact .nil (Nat.le_trans hle h)
    | cons hlow hne hP hinner hrest => exact .cons (Nat.le_trans hle hlow) hne hP hinner hrest
  | cons hlow hne hP hinner _ _ ih => exact .cons hlow hne hP hinner (ih hu)

theorem split (h : Within P low high (ts ++ us)) :
    ∃ mid, Within P low mid ts ∧ Within P mid high us := by
  induction ts generalizing low with
  | nil => exact ⟨low, .nil (Nat.le_refl _), h⟩
  | cons t ts ih =>
    cases h with
    | cons hlow hne hP hinner hrest =>
      obtain ⟨mid, hts, hus⟩ := ih hrest
      exact ⟨mid, .cons hlow hne hP hinner hts, hus⟩

theorem le (h : Within P low high ts) : low ≤ high := by
  induction h with
  | nil h => exact h
  | cons hlow hne _ _ _ _ ih => omega

theorem lt (h : Within P low high (t :: ts)) : low < high := by
  cases h with
  | cons hlow hne _ _ hrest =>
    have := hrest.le
    omega

theorem fromHead (h : Within P low high (t :: ts)) :
    low ≤ t.start ∧ Within P t.start high (t :: ts) := by
  cases h with
  | cons hlow hne hP hinner hrest => exact ⟨hlow, .cons (Nat.le_refl _) hne hP hinner hrest⟩

theorem toLast (h : Within P low high (ts ++ [t])) :
    t.stop ≤ high ∧ Within P low t.stop (ts ++ [t]) := by
  obtain ⟨mid, hts, ht⟩ := h.split
  cases ht with
  | cons hlow hne hP hinner hrest =>
    exact ⟨hrest.le, hts.append (.cons hlow hne hP hinner (.nil (Nat.le_refl _)))⟩

/-- Siblings can be taken into a conditional where they stand. -/
theorem conditional (hP : ∀ start stop, P (NodeHead.plain .preprocessorBlock start stop)) (id : Nat)
    (h : Within P low high (ts ++ [t])) : Within P low high [conditional id (ts ++ [t])] := by
  obtain ⟨hstop, hw⟩ := h.toLast
  obtain ⟨first, rest, he⟩ := List.exists_cons_of_ne_nil (List.concat_ne_nil t ts)
  rw [he] at hw
  obtain ⟨hstart, hw⟩ := hw.fromHead
  have hlast : (first :: rest).getLast? = some t := by rw [← he, List.getLast?_concat]
  rw [he]
  simp only [Tree.conditional, List.head?_cons, hlast, Option.map_some, Option.getD_some]
  exact .cons hstart hw.lt (hP _ _) hw (.nil hstop)

end Within

/-- The numbers of all nodes of some trees. -/
def numbers (ts : List Tree) : List Nat := ts.flatMap fun t ↦ t.preorder.map Tree.id

theorem numbers_append (ts us : List Tree) : numbers (ts ++ us) = numbers ts ++ numbers us :=
  List.flatMap_append

theorem numbers_cons (t : Tree) (ts : List Tree) : numbers (t :: ts) = numbers [t] ++ numbers ts :=
  numbers_append [t] ts

theorem numbers_singleton (t : Tree) : numbers [t] = t.id :: numbers t.children := by
  simp [numbers, preorder_eq_cons t, List.map_flatMap]

namespace Grouping

variable {P : NodeHead → Prop} {low mid high : Nat} {g : Grouping} {t : Tree} {ts : List Tree}

theorem siblings_add (g : Grouping) (t : Tree) : (g.add t).siblings = g.siblings ++ [t] := by
  unfold add
  split <;> rename_i hp <;> simp [siblings, hp]

@[simp] theorem next_add (g : Grouping) (t : Tree) : (g.add t).next = g.next := by
  unfold add
  split <;> rfl

/-- What a sibling does when it comes. -/
theorem step_cases (g : Grouping) (t : Tree) :
    ((g.step t).siblings = g.siblings ++ [t] ∧ (g.step t).next = g.next) ∨
      ∃ front members, g.siblings = front ++ members ∧
        (g.step t).siblings = front ++ [conditional g.next (members ++ [t])] ∧
        (g.step t).next = g.next + 1 := by
  fun_cases step g t with
  | case1 => exact .inl ⟨by simp [siblings], rfl⟩
  | case2 => exact .inl ⟨siblings_add g t, next_add g t⟩
  | case3 => exact .inl ⟨siblings_add g t, next_add g t⟩
  | case4 => exact .inl ⟨siblings_add g t, next_add g t⟩
  | case5 _ _ members outer hp =>
    refine .inr ⟨(⟨g.done, outer, g.flat, g.next⟩ : Grouping).siblings, members.reverse, ?_, ?_, next_add ..⟩
    · simp [siblings, hp]
    · rw [siblings_add, List.reverse_cons]
      rfl
  | case6 => exact .inl ⟨siblings_add g t, next_add g t⟩

theorem step_within (hP : ∀ start stop, P (NodeHead.plain .preprocessorBlock start stop))
    (h : Within P low high (g.siblings ++ [t])) : Within P low high (g.step t).siblings := by
  rcases g.step_cases t with ⟨hs, -⟩ | ⟨front, members, hg, hs, -⟩
  · rwa [hs]
  · rw [hg, List.append_assoc] at h
    obtain ⟨mid, hfront, hmembers⟩ := h.split
    rw [hs]
    exact hfront.append (hmembers.conditional hP g.next)

theorem foldl_within (hP : ∀ start stop, P (NodeHead.plain .preprocessorBlock start stop))
    (h : Within P low high (g.siblings ++ ts)) : Within P low high (ts.foldl step g).siblings := by
  induction ts generalizing g with
  | nil => simpa using h
  | cons t ts ih =>
    rw [List.append_cons] at h
    obtain ⟨mid, hfront, hts⟩ := h.split
    exact ih ((step_within hP hfront).append hts)

theorem step_numbers (g : Grouping) (t : Tree) :
    ∃ k, (g.step t).next = g.next + k ∧
      (numbers (g.step t).siblings).Perm (numbers (g.siblings ++ [t]) ++ List.range' g.next k) := by
  rcases g.step_cases t with ⟨hs, hn⟩ | ⟨front, members, hg, hs, hn⟩
  · exact ⟨0, hn, by rw [hs, List.range'_zero, List.append_nil]⟩
  · refine ⟨1, hn, ?_⟩
    rw [hs, hg, List.append_assoc, numbers_append, numbers_append, numbers_singleton, List.range'_one,
      List.append_assoc]
    exact (List.perm_append_singleton _ _).symm.append_left _

theorem foldl_numbers (g : Grouping) (ts : List Tree) :
    ∃ k, (ts.foldl step g).next = g.next + k ∧
      (numbers (ts.foldl step g).siblings).Perm
        (numbers (g.siblings ++ ts) ++ List.range' g.next k) := by
  induction ts generalizing g with
  | nil => exact ⟨0, rfl, by simp⟩
  | cons t ts ih =>
    obtain ⟨k, hk, hstep⟩ := g.step_numbers t
    obtain ⟨n, hn, hrest⟩ := ih (g.step t)
    refine ⟨k + n, by rw [List.foldl_cons, hn, hk, Nat.add_assoc], ?_⟩
    have hsplit : List.range' g.next (k + n) = List.range' g.next k ++ List.range' (g.step t).next n := by
      rw [hk, List.range'_append_1]
    rw [List.append_cons, numbers_append _ ts, hsplit]
    rw [numbers_append _ ts] at hrest
    refine hrest.trans (((hstep.append_right _).append_right _).trans ?_)
    simp only [List.append_assoc]
    exact (List.perm_append_comm_assoc _ _ _).append_left _

/-- Two groupings that have seen siblings with the same marks. -/
structure Alike (g h : Grouping) : Prop where
  pending : g.pending.length = h.pending.length
  flat : g.flat = h.flat
  next : g.next = h.next

namespace Alike

variable {g h : Grouping}

theorem add (ha : Alike g h) (t u : Tree) : Alike (g.add t) (h.add u) := by
  have hp := ha.pending
  unfold Grouping.add
  cases hg : g.pending <;> cases hh : h.pending <;> simp only [hg, hh, List.length_nil, List.length_cons] at hp
  · exact ⟨rfl, ha.flat, ha.next⟩
  · omega
  · omega
  · exact { ha with pending := by simpa using hp }

theorem step (ha : Alike g h) {t u : Tree} (hm : t.mark = u.mark) : Alike (g.step t) (h.step u) := by
  have hadd := ha.add t u
  unfold Grouping.step
  rw [← hm, ← ha.pending, ← ha.flat]
  cases t.mark with
  | opens =>
    dsimp only
    split
    · exact ⟨by simp [ha.pending], rfl, ha.next⟩
    · exact { hadd with flat := rfl }
  | closes =>
    dsimp only
    split
    · exact { hadd with flat := rfl }
    · have hp := ha.pending
      cases hg : g.pending <;> cases hh : h.pending <;>
        simp only [hg, hh, List.length_nil, List.length_cons] at hp
      · exact hadd
      · omega
      · omega
      · rename_i outer _ outer'
        have hclosed : Alike ⟨g.done, outer, g.flat, g.next + 1⟩ ⟨h.done, outer', g.flat, h.next + 1⟩ :=
          ⟨Nat.succ.inj hp, rfl, congrArg (· + 1) ha.next⟩
        exact hclosed.add _ _
  | other => exact hadd

theorem foldl (ha : Alike g h) {ts us : List Tree} (hm : ts.map mark = us.map mark) :
    Alike (ts.foldl Grouping.step g) (us.foldl Grouping.step h) := by
  induction ts generalizing g h us with
  | nil =>
    obtain rfl := List.map_eq_nil_iff.1 hm.symm
    exact ha
  | cons t ts ih =>
    obtain ⟨u, us, rfl, hu, hus⟩ := List.map_eq_cons_iff.1 hm.symm
    exact ih (ha.step hu.symm) hus.symm

end Alike

end Grouping

variable {P : NodeHead → Prop} {low high : Nat}

theorem numberAll_within {os : List Outline} (h : Outline.Within P low high os) (next : Nat) :
    Within P low high (numberAll next os).1 := by
  induction h generalizing next with
  | nil h => exact .nil h
  | cons hlow hne hP _ _ ihInner ihRest => exact .cons hlow hne hP (ihInner _) (ihRest _)

mutual

/-- Numbers are given from the root on in order. -/
theorem numbers_number (next : Nat) (o : Outline) :
    ∃ k, (number next o).2 = next + k ∧ numbers [(number next o).1] = List.range' next k := by
  cases o with
  | node head children =>
    obtain ⟨k, hk, hn⟩ := numbers_numberAll (next + 1) children
    refine ⟨k + 1, by rw [number, hk]; omega, ?_⟩
    rw [number, numbers_singleton, List.range'_succ]
    exact congrArg _ hn

theorem numbers_numberAll (next : Nat) (os : List Outline) :
    ∃ k, (numberAll next os).2 = next + k ∧ numbers (numberAll next os).1 = List.range' next k := by
  cases os with
  | nil => exact ⟨0, rfl, rfl⟩
  | cons o os =>
    obtain ⟨k, hk, hn⟩ := numbers_number next o
    obtain ⟨m, hm, hr⟩ := numbers_numberAll (number next o).2 os
    refine ⟨k + m, by rw [numberAll, hm, hk, Nat.add_assoc], ?_⟩
    rw [numberAll, numbers_cons, hn, hr, hk, List.range'_append_1]

end

theorem group_within (hP : ∀ start stop, P (NodeHead.plain .preprocessorBlock start stop))
    {ts : List Tree} (h : Within P low high ts) (next : Nat) :
    Within P low high (group next ts).siblings :=
  Grouping.foldl_within hP h

theorem regroupAll_within (hP : ∀ start stop, P (NodeHead.plain .preprocessorBlock start stop))
    {ts : List Tree} (h : Within P low high ts) (next : Nat) :
    Within P low high (regroupAll next ts).1 := by
  induction h generalizing next with
  | nil h => exact .nil h
  | cons hlow hne hhead _ _ ihInner ihRest =>
    exact .cons hlow hne hhead (group_within hP (ihInner _) _) (ihRest _)

theorem map_mark_regroupAll (next : Nat) (ts : List Tree) :
    (regroupAll next ts).1.map mark = ts.map mark := by
  induction ts generalizing next with
  | nil => rfl
  | cons t ts ih =>
    have hm : (regroup next t).1.mark = t.mark := by
      cases t
      rfl
    simp only [regroupAll, List.map_cons, hm, ih]

theorem next_group_regroupAll (next n : Nat) (ts : List Tree) :
    (group next (regroupAll n ts).1).next = (group next ts).next :=
  (Grouping.Alike.foldl ⟨rfl, rfl, rfl⟩ (map_mark_regroupAll n ts)).next

mutual

/-- Grouping keeps the numbers that nodes have and gives its new nodes the free numbers in order. -/
theorem numbers_regroup (next : Nat) (t : Tree) :
    ∃ k, (regroup next t).2 = next + k ∧
      (numbers [(regroup next t).1]).Perm (numbers [t] ++ List.range' next k) := by
  cases t with
  | node id head children =>
    obtain ⟨k, hk, hgroup⟩ := Grouping.foldl_numbers ⟨[], [], 0, next⟩
      (regroupAll (group next children).next children).1
    obtain ⟨m, hm, hall⟩ := numbers_regroupAll (group next children).next children
    have hnext : (group next children).next = next + k :=
      (next_group_regroupAll next _ children).symm.trans hk
    refine ⟨k + m, by rw [regroup, hm, hnext, Nat.add_assoc], ?_⟩
    rw [regroup, numbers_singleton, numbers_singleton, List.cons_append]
    refine List.Perm.cons id (hgroup.trans ?_)
    rw [← List.range'_append_1, ← hnext]
    refine (hall.append_right _).trans ?_
    simp only [List.append_assoc]
    exact List.perm_append_comm.append_left _

theorem numbers_regroupAll (next : Nat) (ts : List Tree) :
    ∃ k, (regroupAll next ts).2 = next + k ∧
      (numbers (regroupAll next ts).1).Perm (numbers ts ++ List.range' next k) := by
  cases ts with
  | nil => exact ⟨0, rfl, .nil⟩
  | cons t ts =>
    obtain ⟨k, hk, hn⟩ := numbers_regroup next t
    obtain ⟨m, hm, hr⟩ := numbers_regroupAll (regroup next t).2 ts
    refine ⟨k + m, by rw [regroupAll, hm, hk, Nat.add_assoc], ?_⟩
    rw [regroupAll, numbers_cons, numbers_cons t ts, ← List.range'_append_1, ← hk]
    refine (hn.append hr).trans ?_
    simp only [List.append_assoc]
    exact (List.perm_append_comm_assoc _ _ _).append_left _

end

/-- The numbers of a tree are those from zero on, each once. -/
theorem numbers_ofOutline (o : Outline) :
    ∃ k, ((ofOutline o).preorder.map Tree.id).Perm (List.range k) := by
  obtain ⟨k, hk, hn⟩ := numbers_number 0 o
  obtain ⟨m, -, hr⟩ := numbers_regroup (number 0 o).2 (number 0 o).1
  refine ⟨k + m, ?_⟩
  rw [hn, hk, List.range'_append_1, ← List.range_eq_range'] at hr
  simpa [numbers, ofOutline, hk] using hr

end CodeStyle.Tree
