import CodeStyle.Facts.Basic
import CodeStyle.Proofs.Visits

/-!
Where facts come from. Every name among the facts of a file is that of one of its tokens, and every
function is that of a node of its tree.
-/

namespace CodeStyle

/-- The name is that of a token of which `P` holds. -/
def Name.From (P : Focus → Prop) (n : Name) : Prop := ∃ f, P f ∧ n = Name.ofFocus f

def Specifiers.From (P : Focus → Prop) (s : Specifiers) : Prop :=
  ∀ tag ∈ s.tag, ∀ n ∈ tag.2, n.From P

namespace Declaration

variable {P : Focus → Prop} {code part : List Focus} {f : Focus}

theorem specifiers_from (body : Option Nat) (pos : Nat) (hasBase : Bool) {s : Specifiers}
    (hP : ∀ f ∈ code, f.token.isIdentifier = true → P f) (hs : s.From P) :
    (specifiers body pos hasBase s code).1.From P ∧
      ∀ f ∈ (specifiers body pos hasBase s code).2.2, f.token.isIdentifier = true → P f := by
  fun_induction specifiers body pos hasBase s code with
  | case1 => exact ⟨hs, hP⟩
  | case2 => exact ⟨by simp [Specifiers.From], by simp⟩
  | case3 _ _ s f _ _ kind _ tag rest hid ih =>
    refine ih (fun q hq ↦ hP q (by simp [hq])) ?_
    intro _ ht n hn
    cases ht
    cases hn
    exact ⟨tag, hP tag (by simp) (Bool.and_eq_true_iff.1 hid).2, rfl⟩
  | case4 _ _ s f _ _ kind _ tag rest _ ih =>
    exact ih (fun q hq ↦ hP q (List.mem_cons_of_mem _ hq)) (by simp [Specifiers.From])
  | case5 _ _ s f rest _ _ _ _ ih => exact ih (fun q hq ↦ hP q (List.mem_cons_of_mem _ hq)) hs
  | case6 => exact ⟨hs, hP⟩
  | case7 _ _ s f rest _ _ _ _ _ ih => exact ih (fun q hq ↦ hP q (List.mem_cons_of_mem _ hq)) hs
  | case8 => exact ⟨hs, hP⟩
  | case9 => exact ⟨hs, hP⟩

theorem mem_of_mem_splitCommas {depth : Nat} (hpart : part ∈ splitCommas depth code) (hf : f ∈ part) :
    f ∈ code := by
  fun_induction splitCommas depth code generalizing part with
  | case1 =>
    cases List.mem_singleton.1 hpart
    exact hf
  | case2 _ g rest _ =>
    rename_i ih
    rcases List.mem_cons.1 hpart with rfl | hpart
    · cases hf
    · exact List.mem_cons_of_mem _ (ih hpart hf)
  | case3 _ g rest =>
    cases List.mem_singleton.1 hpart
    exact List.mem_cons.2 (.inl (List.mem_singleton.1 hf))
  | case4 _ g rest _ first parts hsplit =>
    rename_i ih
    rw [hsplit] at ih
    rcases List.mem_cons.1 hpart with rfl | hpart
    · rcases List.mem_cons.1 hf with rfl | hf
      · exact List.mem_cons_self ..
      · exact List.mem_cons_of_mem _ (ih (List.mem_cons_self ..) hf)
    · exact List.mem_cons_of_mem _ (ih (List.mem_cons_of_mem _ hpart) hf)

theorem beforeValue_sublist (depth : Nat) (code : List Focus) :
    (beforeValue depth code).Sublist code := by
  fun_induction beforeValue depth code with
  | case1 => exact .slnil
  | case2 => exact List.nil_sublist _
  | case3 _ _ _ _ ih => exact ih.cons_cons _

theorem parenContent_sublist (depth : Nat) (code : List Focus) :
    (parenContent depth code).Sublist code := by
  fun_induction parenContent depth code with
  | case1 => exact .slnil
  | case2 _ _ _ _ ih => exact ih.cons_cons _
  | case3 => exact List.nil_sublist _
  | case4 _ _ _ _ _ ih => exact ih.cons_cons _
  | case5 _ _ _ _ _ ih => exact ih.cons_cons _

theorem lastIdentifier_mem (h : lastIdentifier code = some f) : f ∈ code ∧ f.token.isIdentifier = true := by
  rw [lastIdentifier] at h
  exact ⟨List.mem_reverse.1 (List.mem_of_find?_eq_some h), by simpa using List.find?_some h⟩

theorem declarator_from {d : Declarator} (hP : ∀ f ∈ part, f.token.isIdentifier = true → P f)
    (h : declarator? part = some d) : d.name.From P := by
  have hsub := beforeValue_sublist 0 part
  unfold declarator? at h
  dsimp only at h
  split at h
  · obtain ⟨f, hf, rfl⟩ := Option.map_eq_some_iff.1 h
    refine ⟨f, hP f (hsub.subset ?_) (lastIdentifier_mem hf).2, rfl⟩
    have hin := (List.takeWhile_sublist _).subset (lastIdentifier_mem hf).1
    exact (List.dropWhile_sublist _).subset (List.mem_of_mem_drop ((parenContent_sublist 0 _).subset hin))
  · obtain ⟨f, hf, rfl⟩ := Option.map_eq_some_iff.1 h
    obtain ⟨hin, hid⟩ := lastIdentifier_mem hf
    exact ⟨f, hP f (hsub.subset ((List.takeWhile_sublist _).subset hin)) hid, rfl⟩

theorem read_from (hP : ∀ f ∈ code, f.token.isIdentifier = true → P f) (body : Option Nat) :
    (read code body).1.From P ∧ ∀ d ∈ (read code body).2, d.name.From P := by
  have hnone : noSpecifiers.From P := by simp [Specifiers.From, noSpecifiers]
  obtain ⟨hs, hrest⟩ := specifiers_from body 0 false hP hnone
  refine ⟨hs, fun d hd ↦ ?_⟩
  unfold read at hd
  dsimp only at hd
  split at hd
  · obtain ⟨part, hpart, hd⟩ := List.mem_filterMap.1 hd
    exact declarator_from (fun f hf ↦ hrest f (mem_of_mem_splitCommas hpart hf)) hd
  · cases hd

end Declaration

/-- A function fact belongs to a node that is visited, and its other parts are read from that node. -/
structure FunctionFact.Sound (foci : Array Focus) (visits : List Visit) (fn : FunctionFact) : Prop where
  node : fn.node ∈ visits
  name : fn.name.From (· ∈ foci)
  body : fn.body = fn.node.tree.block
  labels : fn.labels = (fn.body.map (Facts.labels foci)).getD []
  gotos : fn.gotos = (fn.body.map fun b ↦ Facts.gotos (b.foci foci)).getD []

namespace Facts

variable {P : Focus → Prop} {foci : Array Focus}

theorem mem_of_mem_extract {i j : Nat} {f : Focus} (hf : f ∈ (foci.extract i j).toList) : f ∈ foci := by
  obtain ⟨k, hk, rfl⟩ := Array.mem_extract_iff_getElem.1 (Array.mem_toList_iff.1 hf)
  exact Array.getElem_mem _

theorem mem_foci {t : Tree} {f : Focus} (hf : f ∈ t.foci foci) : f ∈ foci := mem_of_mem_extract hf

theorem declarationCode_mem (foci : Array Focus) (t : Tree) : ∀ f ∈ (declarationCode foci t).1, f ∈ foci := by
  intro f hf
  unfold declarationCode at hf
  dsimp only at hf
  split at hf
  · exact mem_foci (List.mem_of_mem_filter (List.dropLast_subset _ hf))
  · exact mem_foci (List.mem_of_mem_filter hf)

theorem declared_from (hP : ∀ f ∈ foci, f.token.isIdentifier = true → P f) (t : Tree) :
    (Declaration.read (declarationCode foci t).1 (declarationCode foci t).2).1.From P ∧
      ∀ d ∈ (Declaration.read (declarationCode foci t).1 (declarationCode foci t).2).2, d.name.From P :=
  Declaration.read_from (fun f hf ↦ hP f (declarationCode_mem foci t f hf)) _

theorem mem_of_mem_parameterParts {rest part : List Focus} {f : Focus} (hpart : part ∈ parameterParts rest)
    (hf : f ∈ part) : f ∈ rest := by
  unfold parameterParts at hpart
  split at hpart
  · cases hpart
  · rename_i first code hcode
    split at hpart
    · have hin := (Declaration.parenContent_sublist 0 code).subset
        (Declaration.mem_of_mem_splitCommas hpart hf)
      refine List.mem_of_mem_filter (p := Focus.isCode) ?_
      rw [hcode]
      exact List.mem_cons_of_mem _ hin
    · cases hpart

theorem parameters_from (hP : ∀ f ∈ foci, f.token.isIdentifier = true → P f) (t : Tree) (name : Name) :
    ∀ v ∈ parameters foci t name, v.name.From P := by
  intro v hv
  obtain ⟨part, hpart, hv⟩ := List.mem_filterMap.1 hv
  obtain ⟨d, hd, rfl⟩ := Option.map_eq_some_iff.1 hv
  have hin : ∀ f ∈ part, f ∈ foci := fun f hf ↦ mem_of_mem_extract (mem_of_mem_parameterParts hpart hf)
  exact (Declaration.read_from (fun f hf ↦ hP f (hin f hf)) none).2 d (List.mem_of_head? hd)

/-- A label fact is that of a label node. -/
theorem mem_labels {body : Tree} {n : Name} (hn : n ∈ labels foci body) :
    ∃ t ∈ body.preorder, t.kind = .label ∧ ∃ i f, t.head.name = some i ∧ foci[i]? = some f ∧
      n = Name.ofFocus f := by
  obtain ⟨t, ht, hn⟩ := List.mem_filterMap.1 hn
  split at hn
  · rename_i hk
    obtain ⟨f, hf, rfl⟩ := Option.map_eq_some_iff.1 hn
    obtain ⟨i, hi, hf⟩ := Option.bind_eq_some_iff.1 hf
    exact ⟨t, ht, by simpa using hk, i, f, hi, hf, rfl⟩
  · cases hn

theorem gotos_from {region : List Focus} (hP : ∀ f ∈ region, P f) :
    ∀ g ∈ gotos region, g.keyword.From P ∧ g.target.From P := by
  fun_induction gotos region with
  | case1 => simp
  | case2 f rest _ target htarget _ ih =>
    intro g hg
    rcases List.mem_cons.1 hg with rfl | hg
    · have hmem := List.mem_of_find?_eq_some (Option.filter_eq_some_iff.1 htarget).1
      exact ⟨⟨f, hP f (by simp), rfl⟩, target, hP target (List.mem_cons_of_mem _ hmem), rfl⟩
    · exact ih (fun q hq ↦ hP q (List.mem_cons_of_mem _ hq)) g hg
  | case3 f rest _ _ ih => exact ih fun q hq ↦ hP q (List.mem_cons_of_mem _ hq)

/-- Facts whose names are those of tokens of the file. -/
structure Sound (source : Source) (foci : Array Focus) (visits : List Visit) (facts : Facts) : Prop where
  functions : ∀ fn ∈ facts.functions, fn.Sound foci visits
  objects : ∀ v ∈ facts.objects, v.name.From (· ∈ foci)
  prototypes : ∀ n ∈ facts.prototypes, n.From (· ∈ foci)
  types : ∀ t ∈ facts.types, (∀ n ∈ t.tag, n.From (· ∈ foci)) ∧ ∀ n ∈ t.typeName, n.From (· ∈ foci)
  macros : ∀ m ∈ facts.macros, ∃ start stop, m.span = source.spanFor start stop
  enumConstants : ∀ n ∈ facts.enumConstants, n.From (· ∈ foci)

namespace Sound

variable {source : Source} {visits : List Visit} {facts : Facts} {v : Visit}

theorem addFunction (h : facts.Sound source foci visits) (hv : v ∈ visits) :
    (Facts.addFunction foci v facts).Sound source foci visits := by
  unfold Facts.addFunction
  split
  · exact h
  · rename_i f hf
    obtain ⟨i, -, hi⟩ := Option.bind_eq_some_iff.1 hf
    have hname : (Name.ofFocus f).From (· ∈ foci) := ⟨f, Array.mem_of_getElem? hi, rfl⟩
    refine { h with functions := fun fn hfn ↦ ?_, objects := fun o ho ↦ ?_ }
    · rcases List.mem_append.1 hfn with hfn | hfn
      · exact h.functions fn hfn
      · cases List.mem_singleton.1 hfn
        exact ⟨hv, hname, rfl, rfl, rfl⟩
    · rcases List.mem_append.1 ho with ho | ho
      · exact h.objects o ho
      · exact parameters_from (fun _ hf _ ↦ hf) v.tree _ o ho

theorem addDeclaration (h : facts.Sound source foci visits) :
    (Facts.addDeclaration foci v facts).Sound source foci visits := by
  obtain ⟨hs, hd⟩ := declared_from (fun f (hf : f ∈ foci) _ ↦ hf) v.tree
  refine { h with objects := ?_, prototypes := ?_, types := ?_ }
  · intro o ho
    rcases List.mem_append.1 ho with ho | ho
    · exact h.objects o ho
    · obtain ⟨d, hdm, rfl⟩ := List.mem_map.1 ho
      exact hd d (List.mem_of_mem_filter hdm)
  · intro n hn
    rcases List.mem_append.1 hn with hn | hn
    · exact h.prototypes n hn
    · split at hn
      · obtain ⟨d, hdm, rfl⟩ := List.mem_map.1 hn
        exact hd d (List.mem_of_mem_filter hdm)
      · cases hn
  · intro t ht
    rcases List.mem_append.1 ht with ht | ht
    · exact h.types t ht
    · split at ht
      · rename_i htag _
        cases List.mem_singleton.1 ht
        exact ⟨hs _ htag, by simp⟩
      · cases ht

theorem addType (h : facts.Sound source foci visits) :
    (Facts.addType foci v facts).Sound source foci visits := by
  obtain ⟨hs, hd⟩ := declared_from (fun f (hf : f ∈ foci) _ ↦ hf) v.tree
  unfold Facts.addType
  dsimp only
  generalize Declaration.read (declarationCode foci v.tree).1 (declarationCode foci v.tree).2 = r at hs hd ⊢
  have htag : ∀ n ∈ r.1.tag.bind Prod.snd, n.From (· ∈ foci) := by
    intro n hn
    obtain ⟨tag, ht, hn⟩ := Option.bind_eq_some_iff.1 hn
    exact hs tag ht n hn
  refine { h with types := fun t ht ↦ ?_ }
  rcases List.mem_append.1 ht with ht | ht
  · exact h.types t ht
  · split at ht
    · rename_i d more _ hr
      rw [hr] at hd
      rcases List.mem_cons.1 ht with rfl | ht
      · exact ⟨htag, by simpa using hd d (by simp)⟩
      · obtain ⟨d, hm, rfl⟩ := List.mem_map.1 ht
        exact ⟨by simp, by simpa using hd d (by simp [hm])⟩
    · cases List.mem_singleton.1 ht
      exact ⟨htag, by simp⟩

theorem addMacro (h : facts.Sound source foci visits) :
    (Facts.addMacro source foci v facts).Sound source foci visits := by
  refine { h with macros := fun m hm ↦ ?_ }
  rcases List.mem_append.1 hm with hm | hm
  · exact h.macros m hm
  · obtain ⟨f, -, hm⟩ := Option.bind_eq_some_iff.1 (Option.mem_toList.1 hm)
    obtain ⟨⟨start, stop, _⟩, -, rfl⟩ := Option.map_eq_some_iff.1 hm
    exact ⟨_, _, rfl⟩

theorem addVisit (h : facts.Sound source foci visits) (hv : v ∈ visits) :
    (Facts.addVisit source foci facts v).Sound source foci visits := by
  unfold Facts.addVisit
  split
  · exact h.addFunction hv
  · exact h.addDeclaration
  · exact h.addType
  · exact h.addMacro
  · exact h

theorem foldl {vs : List Visit} (h : facts.Sound source foci visits) (hvs : ∀ v ∈ vs, v ∈ visits) :
    (vs.foldl (Facts.addVisit source foci) facts).Sound source foci visits := by
  induction vs generalizing facts with
  | nil => exact h
  | cons v vs ih => exact ih (h.addVisit (hvs v (by simp))) fun w hw ↦ hvs w (by simp [hw])

end Sound

theorem constantsIn_from (foci : Array Focus) (body : Tree) :
    ∀ n ∈ constantsIn foci body, n.From (· ∈ foci) := by
  intro n hn
  obtain ⟨part, hpart, hn⟩ := List.mem_filterMap.1 hn
  obtain ⟨f, hf, rfl⟩ := Option.map_eq_some_iff.1 hn
  have hin := Declaration.mem_of_mem_splitCommas hpart
    (List.mem_of_head? (Option.filter_eq_some_iff.1 hf).1)
  have hcode : f ∈ ((body.foci foci).filter Focus.isCode).drop 1 := by
    split at hin
    · exact List.dropLast_subset _ hin
    · exact hin
  exact ⟨f, mem_foci (List.mem_of_mem_filter (List.mem_of_mem_drop hcode)), rfl⟩

theorem enumConstantsOf_from (foci : Array Focus) (t : TypeFact) :
    ∀ n ∈ enumConstantsOf foci t, n.From (· ∈ foci) := by
  intro n hn
  unfold enumConstantsOf at hn
  split at hn
  · cases hb : t.node.block with
    | none => simp [hb] at hn
    | some body =>
      rw [hb, Option.map_some, Option.getD_some] at hn
      exact constantsIn_from foci body n hn
  · cases hn

/-- The facts of a file have no other names than those of its tokens. -/
theorem of_sound (source : Source) (tokens : List Token) (foci : Array Focus) (tree : Tree) :
    (of source tokens foci tree).Sound source foci (tree.visits []) := by
  have hempty : empty.Sound source foci (tree.visits []) := by
    constructor <;> simp [empty]
  have h := hempty.foldl fun _ hv ↦ hv
  refine { h with enumConstants := fun n hn ↦ ?_ }
  obtain ⟨t, -, hn⟩ := List.mem_flatMap.1 hn
  exact enumConstantsOf_from foci t n hn

end Facts

namespace FunctionFact.Sound

variable {foci : Array Focus} {visits : List Visit} {fn : FunctionFact}

theorem label_from (h : fn.Sound foci visits) {label : Name} (hl : label ∈ fn.labels) :
    label.From (· ∈ foci) := by
  rw [h.labels] at hl
  cases hb : fn.body with
  | none => simp [hb] at hl
  | some body =>
    rw [hb, Option.map_some, Option.getD_some] at hl
    obtain ⟨_, -, -, i, f, -, hf, rfl⟩ := Facts.mem_labels hl
    exact ⟨f, Array.mem_of_getElem? hf, rfl⟩

theorem goto_from (h : fn.Sound foci visits) {g : GotoFact} (hg : g ∈ fn.gotos) :
    g.keyword.From (· ∈ foci) ∧ g.target.From (· ∈ foci) := by
  rw [h.gotos] at hg
  cases hb : fn.body with
  | none => simp [hb] at hg
  | some body =>
    rw [hb, Option.map_some, Option.getD_some] at hg
    exact Facts.gotos_from (fun _ hf ↦ Facts.mem_foci hf) g hg

end FunctionFact.Sound

end CodeStyle
