import CodeStyle.Proofs.Bounds
import CodeStyle.Proofs.DeclaredNames
import CodeStyle.Proofs.DirectiveSpans
import Mathlib.Data.List.Flatten

/-!
Where findings start. Tokens, lines and the nodes of the tree have bytes of their own, and no byte belongs to
two of them. What is found at different ones of them starts at different bytes.
-/

namespace CodeStyle

/-- Spans that start at different bytes. -/
def Span.Apart (spans : List Span) : Prop := spans.Pairwise fun x y ↦ x.startByte ≠ y.startByte

/-- Spans that start at different bytes, all of them in one place. -/
structure Span.Placed (place : Nat → Prop) (spans : List Span) : Prop where
  apart : Apart spans
  mem : ∀ x ∈ spans, place x.startByte

namespace Span

variable {α : Type} {items : List α} {places : α → Nat → Prop} {place : Nat → Prop} {spans others : List Span}

theorem Apart.nodup (h : Apart spans) : spans.Nodup := h.imp fun hne heq ↦ hne (congrArg Span.startByte heq)

theorem Apart.of_sublist (h : Apart others) (hsub : spans.Sublist others) : Apart spans :=
  List.Pairwise.sublist hsub h

theorem Apart.perm (h : Apart others) (hperm : spans.Perm others) : Apart spans :=
  (hperm.pairwise_iff fun hne heq ↦ hne heq.symm).2 h

theorem apart_of_length_le (h : spans.length ≤ 1) : Apart spans := by
  match spans with
  | [] => exact .nil
  | [_] => exact List.pairwise_singleton _ _

theorem Placed.nil : Placed place [] := ⟨.nil, by simp⟩

theorem Placed.one {span : Span} (h : place span.startByte) : Placed place [span] :=
  ⟨List.pairwise_singleton _ _, by simpa using h⟩

/-- What is found in places that have no byte in common starts at different bytes. -/
theorem apart_flatMap {check : α → List Span} (hitems : items.Pairwise fun a b ↦ ∀ k, places a k → ¬places b k)
    (h : ∀ a ∈ items, Placed (places a) (check a)) : Apart (items.flatMap check) := by
  refine List.pairwise_flatMap.2 ⟨fun a ha ↦ (h a ha).apart, ?_⟩
  refine hitems.imp_of_mem fun {a b} ha hb hab x hx y hy heq ↦ ?_
  exact hab x.startByte ((h a ha).mem x hx) (heq ▸ (h b hb).mem y hy)

end Span

/-- The spans of what is found. -/
def Outcome.spans (o : Outcome) : List Span := o.findings.map Finding.span

namespace Outcome

variable {α : Type} {items : List α} {check : α → Outcome} {place : Nat → Prop}

theorem spans_each_sublist (items : List α) (check : α → Outcome) :
    (each items check).spans.Sublist (items.flatMap fun a ↦ (check a).spans) := by
  induction items with
  | nil => exact .slnil
  | cons a items ih =>
    rw [each, andThen, List.flatMap_cons]
    split
    · exact List.sublist_append_left _ _
    · rw [spans, List.map_append]
      exact (List.Sublist.refl _).append ih

theorem each_apart {places : α → Nat → Prop} (hitems : items.Pairwise fun a b ↦ ∀ k, places a k → ¬places b k)
    (h : ∀ a ∈ items, Span.Placed (places a) (check a).spans) : Span.Apart (each items check).spans :=
  (Span.apart_flatMap hitems h).of_sublist (spans_each_sublist items check)

theorem found_flatMap_sublist {g : α → List Finding} {spansOf : α → List Span}
    (h : ∀ a ∈ items, ((g a).map Finding.span).Sublist (spansOf a)) :
    (found (items.flatMap g)).spans.Sublist (items.flatMap spansOf) := by
  rw [spans, found, List.map_flatMap]
  exact List.Sublist.flatMap_right items h

theorem found_filterMap_sublist {g : α → Option Finding} {spansOf : α → Span}
    (h : ∀ a ∈ items, ∀ x, g a = some x → x.span = spansOf a) :
    (found (items.filterMap g)).spans.Sublist (items.map spansOf) := by
  rw [List.filterMap_eq_flatMap_toList, List.map_eq_flatMap]
  refine found_flatMap_sublist fun a ha ↦ ?_
  cases hx : g a with
  | none => exact List.nil_sublist _
  | some x => rw [← h a ha x hx]; exact .refl _

theorem found_filter_sublist {p : α → Bool} {g : α → Finding} :
    (found ((items.filter p).map g)).spans.Sublist (items.map fun a ↦ (g a).span) := by
  rw [spans, found, List.map_map]
  exact List.filter_sublist.map _

theorem each_sublist {spanOf : α → Span} (h : ∀ a ∈ items, (check a).spans.Sublist [spanOf a]) :
    (each items check).spans.Sublist (items.map spanOf) := by
  rw [List.map_eq_flatMap]
  exact (spans_each_sublist items check).trans (List.Sublist.flatMap_right items h)

end Outcome

theorem RuleInput.withToken_sublist {r : RuleInput} {index : Nat} {check : Focus → Outcome} {spans : List Span}
    (h : ∀ f, r.file.foci[index]? = some f → (check f).spans.Sublist spans) :
    (r.withToken index check).spans.Sublist spans := by
  unfold withToken
  split
  case h_1 f hf => exact h f hf
  case h_2 => exact List.nil_sublist _

/-- Offsets from `low` on that grow and stay below `high`. -/
def Scans (low high : Nat) (ks : List Nat) : Prop := ks.Pairwise (· < ·) ∧ ∀ k ∈ ks, low ≤ k ∧ k < high

namespace Scans

variable {low mid high k : Nat} {ks : List Nat}

theorem nil : Scans low high [] := ⟨.nil, by simp⟩

theorem cons (h : Scans mid high ks) (hlow : low ≤ k) (hmid : k < mid) (hhigh : k < high) :
    Scans low high (k :: ks) := by
  refine ⟨.cons (fun j hj ↦ Nat.lt_of_lt_of_le hmid (h.2 j hj).1) h.1, List.forall_mem_cons.2 ⟨⟨hlow, hhigh⟩, ?_⟩⟩
  intro j hj
  obtain ⟨hmid', hhigh'⟩ := h.2 j hj
  omega

theorem mono (h : Scans mid high ks) (hlow : low ≤ mid) : Scans low high ks :=
  ⟨h.1, fun k hk ↦ ⟨Nat.le_trans hlow (h.2 k hk).1, (h.2 k hk).2⟩⟩

end Scans

/-- The bytes of a token. -/
def Token.Has (t : Token) (k : Nat) : Prop := t.span.startByte ≤ k ∧ k < t.span.endByte

/-- The bytes of the tokens that a node has for itself. -/
def Tree.Has (foci : Array Focus) (t : Tree) (k : Nat) : Prop := ∃ f ∈ foci, t.Owns f.index ∧ f.token.Has k

/-- The bytes of a line, and the place where it starts. -/
def Source.LineHas (s : Source) (n k : Nat) : Prop :=
  ∃ start, s.lineStarts[n - 1]? = some start ∧ start ≤ k ∧ ∀ next, s.lineStarts[n]? = some next → k < next

namespace Source

variable {s : Source} {t : Token} {start stop k n m : Nat}

theorem has_start (ht : t ∈ s.tokens) : t.Has t.span.startByte := ⟨Nat.le_refl _, startByte_lt_of_token ht⟩

theorem tokens_disjoint (s : Source) : s.tokens.Pairwise fun t u ↦ ∀ k, t.Has k → ¬u.Has k :=
  s.tokens_apart.imp fun hle _ ht hu ↦ Nat.not_lt.2 (Nat.le_trans hle hu.1) ht.2

theorem token_spans_apart (s : Source) : Span.Apart (s.tokens.map Token.span) := by
  refine List.pairwise_map.2 (s.tokens_disjoint.imp_of_mem fun {t u} ht hu hdisjoint heq ↦ ?_)
  exact hdisjoint _ (has_start ht) (heq ▸ has_start hu)

theorem token_bounds (ht : t ∈ s.tokens) :
    t.span.endByte = t.span.startByte + t.bytes.length ∧ t.span.endByte ≤ s.length := by
  obtain ⟨before, after, hsrc, -, -, -, hspan⟩ := Token.mem_tokenize ht
  have hlength := congrArg List.length hsrc
  rw [List.length_append, List.length_append] at hlength
  rw [hspan]
  exact ⟨rfl, by change before.length + t.bytes.length ≤ s.bytes.length; omega⟩

theorem startByte_spanFor (h : start ≤ stop) (hstart : start ≤ s.length) :
    (s.spanFor start stop).startByte = start :=
  Nat.min_eq_left (Nat.le_min.2 ⟨h, hstart⟩)

theorem placed_one {place : Nat → Prop} (h : start ≤ stop) (hstart : start ≤ s.length) (hplace : place start) :
    Span.Placed place [s.spanFor start stop] := by
  refine .one ?_
  rwa [startByte_spanFor h hstart]

/-- Pieces of a file at the offsets that a scan gives. -/
theorem placed_spanFor {α : Type} {items : List α} {start stop : α → Nat} {place : Nat → Prop} {low high : Nat}
    (hscan : Scans low high (items.map start)) (hle : ∀ a ∈ items, start a ≤ stop a)
    (hplace : ∀ k, low ≤ k → k < high → place k ∧ k ≤ s.length) :
    Span.Placed place (items.map fun a ↦ s.spanFor (start a) (stop a)) := by
  have hstart : ∀ a ∈ items, place (start a) ∧ (s.spanFor (start a) (stop a)).startByte = start a := by
    intro a ha
    obtain ⟨hlow, hhigh⟩ := hscan.2 _ (List.mem_map_of_mem ha)
    obtain ⟨hk, hlength⟩ := hplace _ hlow hhigh
    exact ⟨hk, startByte_spanFor (hle a ha) hlength⟩
  constructor
  · refine List.pairwise_map.2 ((List.pairwise_map.1 hscan.1).imp_of_mem fun {a b} ha hb hlt ↦ ?_)
    rw [(hstart a ha).2, (hstart b hb).2]
    exact Nat.ne_of_lt hlt
  · intro x hx
    obtain ⟨a, ha, rfl⟩ := List.mem_map.1 hx
    rw [(hstart a ha).2]
    exact (hstart a ha).1

theorem lines_disjoint (hlt : n < m) (hn : s.LineHas n k) : ¬s.LineHas m k := by
  rintro ⟨start, hstart, hle, -⟩
  obtain ⟨-, -, -, hnext⟩ := hn
  obtain ⟨hm, rfl⟩ := List.getElem?_eq_some_iff.1 hstart
  have hn : n < s.lineStarts.length := by omega
  have hk := hnext _ (List.getElem?_eq_getElem hn)
  have hsorted : s.lineStarts[n] ≤ s.lineStarts[m - 1] := by
    rcases Nat.lt_or_eq_of_le (show n ≤ m - 1 by omega) with h | h
    · exact Nat.le_of_lt (List.pairwise_iff_getElem.1 s.lineStarts_sorted n (m - 1) hn hm h)
    · simp [h]
  omega

theorem numbers_disjoint (s : Source) {numbers : List Nat} (h : numbers.Pairwise (· < ·)) :
    numbers.Pairwise fun n m ↦ ∀ k, s.LineHas n k → ¬s.LineHas m k :=
  h.imp fun hlt _ hn ↦ lines_disjoint hlt hn

theorem lineRange_next (h : s.lineRange? (n + 1) = some (start, stop)) : s.lineStarts[n]? = some start ∧
    ∀ next, s.lineStarts[n + 1]? = some next → start < next ∧ stop ≤ next := by
  obtain ⟨a, ha, hab⟩ := Option.map_eq_some_iff.1 h
  cases hab
  refine ⟨ha, fun next hnext ↦ ?_⟩
  obtain ⟨hn, rfl⟩ := List.getElem?_eq_some_iff.1 ha
  obtain ⟨hb, rfl⟩ := List.getElem?_eq_some_iff.1 hnext
  have hlt := List.pairwise_iff_getElem.1 s.lineStarts_sorted n (n + 1) hn hb (Nat.lt_succ_self n)
  rw [hnext, Option.getD_some]
  have hlf := stripByte_bounds (s := s) (Text.byte '\n') (Nat.le_of_lt hlt)
  exact ⟨hlt, Nat.le_trans (stripByte_bounds (Text.byte '\r') hlf.1).2 hlf.2⟩

theorem lineHas (h : s.lineRange? n = some (start, stop)) (hk : start ≤ k) (hstop : k < stop ∨ k = start) :
    s.LineHas n k := by
  cases n with
  | zero => cases h
  | succ n =>
    obtain ⟨hstart, hnext⟩ := lineRange_next h
    refine ⟨start, hstart, hk, fun next hn ↦ ?_⟩
    obtain ⟨hlt, hle⟩ := hnext next hn
    omega

end Source

theorem Focus.all_disjoint (s : Source) :
    (Focus.all s.tokens).Pairwise fun f g ↦ ∀ k, f.token.Has k → ¬g.token.Has k := by
  have h := s.tokens_disjoint
  rwa [← Focus.map_token_all s.tokens, List.pairwise_map] at h

theorem Focus.spans_apart (s : Source) : Span.Apart ((Focus.all s.tokens).map (·.token.span)) := by
  have h := s.token_spans_apart
  rwa [← Focus.map_token_all s.tokens, List.map_map] at h

/-- A token is in focus once. -/
theorem Focus.eq_of_has {s : Source} {f g : Focus} {k : Nat} (hf : f ∈ Focus.all s.tokens)
    (hg : g ∈ Focus.all s.tokens) (hfk : f.token.Has k) (hgk : g.token.Has k) : f = g := by
  have hsymm : Std.Symm fun f g : Focus ↦ f.token.Has k → g.token.Has k → f = g :=
    ⟨fun _ _ h hg hf ↦ (h hf hg).symm⟩
  have heq : (Focus.all s.tokens).Pairwise fun f g ↦ f.token.Has k → g.token.Has k → f = g :=
    (Focus.all_disjoint s).imp fun h hf hg ↦ absurd hg (h k hf)
  exact heq.forall_of_forall (fun _ _ _ _ ↦ rfl) hf hg hfk hgk

theorem Focus.eq_of_startByte {s : Source} {f g : Focus} (hf : f ∈ Focus.all s.tokens)
    (hg : g ∈ Focus.all s.tokens) (h : f.token.span.startByte = g.token.span.startByte) : f = g :=
  eq_of_has hf hg (Source.has_start (token_mem hf)) (h ▸ Source.has_start (token_mem hg))

namespace Analysis

variable {s : Source} {t : Tree} {f : Focus} {k : Nat}

theorem mem_foci : f ∈ (of s).foci ↔ f ∈ Focus.all s.tokens := List.mem_toArray

theorem getElem_foci {i : Nat} : (of s).foci[i]? = some f ↔ f ∈ (of s).foci ∧ f.index = i := by
  have hc := foci_consecutive s
  constructor
  · intro h
    have hindex := hc i f (by rwa [Array.getElem?_toList])
    exact ⟨Array.mem_of_getElem? h, by omega⟩
  · rintro ⟨hf, rfl⟩
    obtain ⟨i, hi⟩ := List.mem_iff_getElem?.1 (Array.mem_toList_iff.2 hf)
    have hindex := hc i f hi
    rw [Array.getElem?_toList] at hi
    rw [hindex, Nat.zero_add, hi]

theorem startByte_le {g : Focus} {i j : Nat} (hf : (of s).foci[i]? = some f) (hg : (of s).foci[j]? = some g)
    (hij : i ≤ j) : f.token.span.startByte ≤ g.token.span.startByte := by
  rcases Nat.lt_or_eq_of_le hij with hlt | rfl
  · rw [← Array.getElem?_toList] at hf hg
    obtain ⟨hi, rfl⟩ := List.getElem?_eq_some_iff.1 hf
    obtain ⟨hj, rfl⟩ := List.getElem?_eq_some_iff.1 hg
    have hle := List.pairwise_iff_getElem.1 (Focus.all_apart s) i j hi hj hlt
    have hpos := Source.startByte_lt_of_token (Focus.token_mem (List.getElem_mem hi))
    exact Nat.le_of_lt (Nat.lt_of_lt_of_le hpos hle)
  · cases hf.symm.trans hg
    exact Nat.le_refl _

theorem nodes_disjoint (s : Source) :
    (of s).preorder.Pairwise fun t u ↦ ∀ k, t.Has (of s).foci k → ¬u.Has (of s).foci k := by
  refine (Tree.owns_ofFoci s.tokens).imp fun happart k ↦ ?_
  rintro ⟨f, hf, hft, hfk⟩ ⟨g, hg, hgu, hgk⟩
  obtain rfl := Focus.eq_of_has (mem_foci.1 hf) (mem_foci.1 hg) hfk hgk
  exact happart f.index hft hgu

theorem visits_disjoint (s : Source) :
    (of s).visits.Pairwise fun v w ↦ ∀ k, v.tree.Has (of s).foci k → ¬w.tree.Has (of s).foci k :=
  List.pairwise_map.1 (nodes_disjoint s)

theorem children_disjoint (s : Source) :
    ((of s).preorder.flatMap Tree.children).Pairwise
      fun t u ↦ ∀ k, t.Has (of s).foci k → ¬u.Has (of s).foci k := by
  have hperm := (of s).tree.preorder_perm
  have h := (hperm.pairwise_iff fun h k hu ht ↦ h k ht hu).1 (nodes_disjoint s)
  exact (List.pairwise_cons.1 h).2

/-- An item has the bytes of its first token. -/
theorem item_has (ht : t ∈ (of s).preorder) (hitem : t.kind.isItem = true) (hf : (of s).foci[t.start]? = some f)
    (hk : f.token.Has k) : t.Has (of s).foci k := by
  obtain ⟨hmem, hindex⟩ := getElem_foci.1 hf
  exact ⟨f, hmem, hindex ▸ (Tree.itemized_ofFoci s.tokens t ht hitem).start, hk⟩

/-- The first token of an item of code is code. -/
theorem firstCode_item (ht : t ∈ (of s).preorder) (hitem : Rule.Structure.isItem t = true)
    (hf : t.firstCode (of s).foci = some f) : t.Has (of s).foci f.token.span.startByte := by
  have hkind : t.kind.isItem = true ∧ ∀ u, t.kind.leads u = u.isCode := by
    simp only [Rule.Structure.isItem, Bool.or_eq_true, beq_iff_eq] at hitem
    rcases hitem with (((h | h) | h) | h) | h <;> rw [h] <;> exact ⟨rfl, fun _ ↦ rfl⟩
  obtain ⟨g, hg, hindex, hcode⟩ := (Tree.itemized_ofFoci s.tokens t ht hkind.1).leads
  have hstart : (of s).foci[t.start]? = some g := getElem_foci.2 ⟨mem_foci.2 hg, hindex⟩
  have hlt : 0 < t.size := by
    have howns := (Tree.itemized_ofFoci s.tokens t ht hkind.1).start
    exact Nat.sub_pos_of_lt howns.2.1
  have hfirst : t.firstCode (of s).foci = some g := by
    obtain ⟨n, hn⟩ := Nat.exists_eq_add_of_lt hlt
    rw [Tree.firstCode, hn, firstCodeFrom, hstart]
    exact if_pos ((hkind.2 g.token).symm.trans hcode)
  cases hfirst.symm.trans hf
  exact item_has ht hkind.1 hstart (Source.has_start (Focus.token_mem hg))

/-- Names of different tokens start at different bytes. -/
theorem names_apart {ns : List Name} (h : Name.Apart (of s).foci ns) : Span.Apart (ns.map Name.span) := by
  refine List.pairwise_map.2 ((List.pairwise_map.1 h.nodup).imp_of_mem fun {n m} hn hm hne heq ↦ hne ?_)
  obtain ⟨f, hf, rfl⟩ := h.source n hn
  obtain ⟨g, hg, rfl⟩ := h.source m hm
  rw [Focus.eq_of_startByte (mem_foci.1 hf) (mem_foci.1 hg) heq]

end Analysis

end CodeStyle
