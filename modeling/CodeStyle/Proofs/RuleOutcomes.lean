import CodeStyle.Proofs.ErrorSpans
import CodeStyle.Proofs.FactNames
import CodeStyle.Proofs.TreeShape
import CodeStyle.Rule.Book

/-!
What the rules say of a file. Whatever the file and the limits are, no built-in rule fails, and all that
it finds has the span that the line table gives to its offsets.
-/

namespace CodeStyle

/-- An outcome without a failure whose findings lie exactly in the file. -/
structure Outcome.Sound (s : Source) (o : Outcome) : Prop where
  exact : ∀ f ∈ o.findings, s.Exact f.span
  failure : o.failure = none
  cancels : o.cancels = false

namespace Outcome

variable {α : Type} {s : Source} {items : List α}

theorem clean_sound : clean.Sound s := ⟨by simp [clean], rfl, rfl⟩

theorem found_sound {findings : List Finding} (h : ∀ f ∈ findings, s.Exact f.span) :
    (found findings).Sound s :=
  ⟨h, rfl, rfl⟩

theorem found_one {span : Span} (h : s.Exact span) (message : String) (fix : Option String) :
    (found [⟨span, message, fix⟩]).Sound s := by
  refine found_sound fun f hf ↦ ?_
  rwa [List.mem_singleton.1 hf]

theorem found_map {g : α → Finding} (h : ∀ a ∈ items, s.Exact (g a).span) :
    (found (items.map g)).Sound s := by
  refine found_sound fun f hf ↦ ?_
  obtain ⟨a, ha, rfl⟩ := List.mem_map.1 hf
  exact h a ha

theorem found_filterMap {g : α → Option Finding} (h : ∀ a ∈ items, ∀ f ∈ g a, s.Exact f.span) :
    (found (items.filterMap g)).Sound s := by
  refine found_sound fun f hf ↦ ?_
  obtain ⟨a, ha, hf⟩ := List.mem_filterMap.1 hf
  exact h a ha f hf

theorem found_flatMap {g : α → List Finding} (h : ∀ a ∈ items, ∀ f ∈ g a, s.Exact f.span) :
    (found (items.flatMap g)).Sound s := by
  refine found_sound fun f hf ↦ ?_
  obtain ⟨a, ha, hf⟩ := List.mem_flatMap.1 hf
  exact h a ha f hf

theorem andThen_sound {o next : Outcome} (ho : o.Sound s) (hn : next.Sound s) :
    (o.andThen next).Sound s := by
  have h : o.andThen next = ⟨o.findings ++ next.findings, next.failure, o.cancels || next.cancels⟩ := by
    rw [andThen, if_neg (by simp [ho.failure])]
  rw [h]
  refine ⟨fun f hf ↦ ?_, hn.failure, by simp [ho.cancels, hn.cancels]⟩
  rcases List.mem_append.1 hf with hf | hf
  · exact ho.exact f hf
  · exact hn.exact f hf

/-- Checks that do not fail find what each of them finds, in order. -/
theorem each_eq_found {check : α → Outcome} {g : α → List Finding} (h : ∀ a ∈ items, check a = .found (g a)) :
    each items check = .found (items.flatMap g) := by
  induction items with
  | nil => rfl
  | cons a items ih =>
    rw [each, ih fun b hb ↦ h b (by simp [hb]), h a (by simp)]
    rfl

/-- A rule that goes over items fails at none of them if its check does not. -/
theorem each_sound {check : α → Outcome} (h : ∀ a ∈ items, (check a).Sound s) :
    (each items check).Sound s := by
  induction items with
  | nil => exact clean_sound
  | cons a items ih =>
    exact andThen_sound (h a (by simp)) (ih fun b hb ↦ h b (by simp [hb]))

end Outcome

theorem firstCodeFrom_mem {foci : Array Focus} {start count : Nat} {f : Focus}
    (h : firstCodeFrom foci start count = some f) : f ∈ foci := by
  fun_induction firstCodeFrom foci start count with
  | case1 => cases h
  | case2 => cases h
  | case3 _ _ g hg =>
    cases h
    exact Array.mem_of_getElem? hg
  | case4 _ _ _ _ _ ih => exact ih h

theorem Tree.firstCode_mem {foci : Array Focus} {t : Tree} {f : Focus} (h : t.firstCode foci = some f) :
    f ∈ foci :=
  firstCodeFrom_mem h

/-- A node that a keyword leads has code. -/
theorem Tree.firstCode_of_leadKeyword {foci : Array Focus} {t : Tree} {word : String}
    (h : t.leadKeyword foci = some word) : ∃ f, t.firstCode foci = some f := by
  unfold leadKeyword at h
  split at h
  · cases h
  · rename_i f hf
    exact ⟨f, hf⟩

namespace RuleInput

variable {r : RuleInput} {s : Source} (hr : r.file = Analysis.of s)

include hr

theorem source_eq : r.source = s := by rw [source, hr]; rfl

theorem tokens_eq : r.tokens = s.tokens := by rw [tokens, hr]; rfl

theorem foci_eq : r.foci = Focus.all s.tokens := by rw [foci, hr]; rfl

theorem mem_foci {f : Focus} : f ∈ r.file.foci ↔ f ∈ Focus.all s.tokens := by
  rw [← foci_eq hr, foci, Array.mem_toList_iff]

theorem exact_token {t : Token} (ht : t ∈ r.tokens) : s.Exact t.span := by
  rw [tokens_eq hr] at ht
  exact Source.exact_token ht

theorem exact_focus {f : Focus} (hf : f ∈ r.file.foci) : s.Exact f.token.span :=
  Source.exact_token (Focus.token_mem ((mem_foci hr).1 hf))

theorem exact_name {n : Name} (hn : n.From (· ∈ r.file.foci)) : s.Exact n.span := by
  obtain ⟨f, hf, rfl⟩ := hn
  exact exact_focus hr hf

theorem facts_sound : r.facts.Sound s r.file.foci r.file.visits := by
  rw [facts, hr]
  exact Facts.of_sound s _ _ _

/-- A rule that looks at a token of the file finds it. -/
theorem withToken_sound {index : Nat} (hi : index < s.tokens.length) {check : Focus → Outcome}
    (h : ∀ f ∈ r.file.foci, (check f).Sound s) : (r.withToken index check).Sound s := by
  have hsize : r.file.foci.size = s.tokens.length := by
    rw [← Array.length_toList, ← Focus.length_all s.tokens, ← foci_eq hr, foci]
  have hlt : index < r.file.foci.size := by rwa [hsize]
  rw [withToken, Array.getElem?_eq_getElem hlt]
  exact h _ (Array.getElem_mem hlt)

/-- A node that is not the whole file has tokens, and they are tokens of the file. -/
theorem node_range {t : Tree} (ht : t ∈ r.file.preorder) (hk : t.kind ≠ .translationUnit) :
    t.start < t.stop ∧ t.stop ≤ s.tokens.length := by
  rw [hr] at ht
  obtain ⟨hlt, hle, -⟩ := Tree.range_node ht fun he ↦ hk (by rw [he]; rfl)
  exact ⟨hlt, hle⟩

end RuleInput

end CodeStyle
