import CodeStyle.Proofs.DeclaredNames
import CodeStyle.Proofs.ParameterLists

/-!
No token is declared twice. In a file whose delimiters are right every variable, every parameter and every
prototype is an identifier of its own, and the parameters of a function are tokens of its header.
-/

namespace CodeStyle

namespace Facts

variable {foci : Array Focus} {t : Tree} {v : Visit} {P : Focus → Prop}

theorem parameterParts_flatten (rest : List Focus) : parameterParts rest = [] ∨
    ∃ paren code, rest.filter Focus.isCode = paren :: code ∧
      (parameterParts rest).flatten.Sublist (Declaration.parenContent 0 code) := by
  unfold parameterParts
  split
  · exact .inl rfl
  · rename_i paren code hcode
    split
    · exact .inr ⟨paren, code, hcode, Declaration.flatten_splitCommas 0 _⟩
    · exact .inl rfl

/-- Every part of a list of parameters gives at most one name. -/
theorem parameters_sublist (foci : Array Focus) (t : Tree) (name : Name) :
    ((parameters foci t name).map VariableFact.name).Sublist
      ((parameterParts (foci.extract (name.token + 1) t.stop).toList).flatten.map Name.ofFocus) := by
  unfold parameters
  rw [List.map_filterMap]
  refine Declaration.filterMap_sublist (fun part n hn ↦ ?_) _
  obtain ⟨o, ho, rfl⟩ := Option.map_eq_some_iff.1 hn
  obtain ⟨d, hd, rfl⟩ := Option.map_eq_some_iff.1 ho
  exact (Declaration.read_from (fun f hf _ ↦ hf) none).2 d (List.mem_of_head? hd)

theorem parameters_ownedBy (hc : Focus.Consecutive 0 foci.toList) {name : Name}
    (howns : ∀ paren code, ((foci.toList.take t.stop).drop (name.token + 1)).filter Focus.isCode = paren :: code →
      ∀ f ∈ Declaration.parenContent 0 code, t.Owns f.index) :
    Name.OwnedBy foci t ((parameters foci t name).map VariableFact.name) := by
  have hnames := parameters_sublist foci t name
  have hregion : (foci.extract (name.token + 1) t.stop).toList = (foci.toList.take t.stop).drop (name.token + 1) := by
    rw [Array.toList_extract, List.extract_eq_take_drop, List.drop_take]
  rw [hregion] at hnames
  rcases parameterParts_flatten ((foci.toList.take t.stop).drop (name.token + 1)) with
    hnone | ⟨paren, code, hcode, hparts⟩
  · rw [hnone] at hnames
    rw [List.sublist_nil.1 hnames]
    exact .nil
  · have hcontent := hnames.trans (hparts.map Name.ofFocus)
    have hmem : ∀ n ∈ (parameters foci t name).map VariableFact.name,
        ∃ f ∈ Declaration.parenContent 0 code, n = Name.ofFocus f := by
      intro n hn
      obtain ⟨f, hf, rfl⟩ := List.mem_map.1 (hcontent.subset hn)
      exact ⟨f, hf, rfl⟩
    have hinside : (Declaration.parenContent 0 code).Sublist ((foci.toList.take t.stop).drop (name.token + 1)) := by
      have hsub := (Declaration.parenContent_sublist 0 code).trans (List.sublist_cons_self paren code)
      rw [← hcode] at hsub
      exact hsub.trans List.filter_sublist
    refine ⟨?_, fun n hn ↦ ?_, fun n hn ↦ ?_⟩
    · have hindices (region : List Focus) : (region.map Name.ofFocus).map Name.token = region.map Focus.index := by
        rw [List.map_map]
        rfl
      have hsub := (hcontent.trans (hinside.map Name.ofFocus)).map Name.token
      rw [hindices] at hsub
      exact ((hc.take t.stop).drop (name.token + 1)).nodup.sublist hsub
    · obtain ⟨f, hf, rfl⟩ := hmem n hn
      exact howns paren code hcode f hf
    · obtain ⟨f, hf, rfl⟩ := hmem n hn
      exact ⟨f, Array.mem_toList_iff.1 (List.mem_of_mem_take (List.mem_of_mem_drop (hinside.subset hf))), rfl⟩

theorem scopeOf_ne_parameter (above : List Tree) : scopeOf above ≠ .parameter := by
  fun_induction scopeOf above with
  | case1 => decide
  | case2 => decide
  | case3 => decide
  | case4 _ _ _ _ ih => exact ih

theorem objects_addDeclaration (foci : Array Focus) (v : Visit) :
    ((addDeclaration foci v empty).objects.map VariableFact.name ++ (addDeclaration foci v empty).prototypes).Subperm
      (declared foci v.tree) := by
  unfold addDeclaration declared Declaration.names
  dsimp only [empty]
  generalize Declaration.read (declarationCode foci v.tree).1 (declarationCode foci v.tree).2 = r
  rw [List.nil_append, List.nil_append, List.map_map]
  have hall : ((r.2.filter (!·.isFunction)).map Declarator.name ++
      (r.2.filter (·.isFunction)).map Declarator.name).Subperm (r.2.map Declarator.name) := by
    rw [← List.map_append]
    exact ((List.perm_append_comm.trans (List.filter_append_perm _ r.2)).map Declarator.name).subperm
  refine (List.Sublist.subperm ?_).trans (hall.trans (List.sublist_append_right _ _).subperm)
  refine List.Sublist.append_left ?_ _
  split
  · exact .refl _
  · exact List.nil_sublist _

theorem objects_ownedBy (hc : Focus.Consecutive 0 foci.toList)
    (howns : v.tree.kind = .functionDefinition →
      v.tree.head.OwnsParameters foci.toList (v.tree.children.map Tree.head)) (source : Source) :
    Name.OwnedBy foci v.tree
      ((ofVisit source foci v).objects.map VariableFact.name ++ (ofVisit source foci v).prototypes) := by
  unfold ofVisit addVisit
  split
  case h_1 hkind =>
    unfold addFunction
    split
    case h_1 => exact .nil
    case h_2 f hf =>
      obtain ⟨i, hi, hget⟩ := Option.bind_eq_some_iff.1 hf
      have hindex : f.index = i := hc.index_of_getElem? hget
      dsimp only [empty]
      rw [List.nil_append, List.append_nil]
      refine parameters_ownedBy hc fun paren code hcode ↦ ?_
      change ((foci.toList.take v.tree.stop).drop (f.index + 1)).filter Focus.isCode = paren :: code at hcode
      rw [hindex] at hcode
      exact howns hkind hkind i hi paren code hcode
  · exact (declared_ownedBy hc v.tree).subperm (objects_addDeclaration foci v)
  · exact .nil
  · exact .nil
  · exact .nil

theorem names_from (hP : ∀ f ∈ foci, f.token.isIdentifier = true → P f) {n : Name} (hn : n ∈ declared foci t) :
    n.From P := by
  obtain ⟨htag, hdeclarators⟩ := declared_from hP t
  rcases List.mem_append.1 hn with hn | hn
  · obtain ⟨tag, hmem, hn⟩ := Option.bind_eq_some_iff.1 (Option.mem_toList.1 hn)
    exact htag tag hmem n hn
  · obtain ⟨d, hd, rfl⟩ := List.mem_map.1 hn
    exact hdeclarators d hd

theorem objects_from (hP : ∀ f ∈ foci, f.token.isIdentifier = true → P f) (source : Source) (v : Visit) :
    ∀ n ∈ (ofVisit source foci v).objects.map VariableFact.name ++ (ofVisit source foci v).prototypes, n.From P := by
  unfold ofVisit addVisit
  split
  · unfold addFunction
    split
    case h_1 => simp [empty]
    case h_2 f hf =>
      intro n hn
      dsimp only [empty] at hn
      rw [List.nil_append, List.append_nil] at hn
      obtain ⟨o, ho, rfl⟩ := List.mem_map.1 hn
      exact parameters_from hP v.tree _ o ho
  · intro n hn
    exact names_from hP ((objects_addDeclaration foci v).subset hn)
  all_goals simp [empty, addType, addMacro]

/-- A parameter comes from a function definition, to which it belongs. -/
theorem exists_of_parameter {source : Source} {o : VariableFact} (ho : o ∈ (ofVisit source foci v).objects)
    (hscope : o.scope = .parameter) : v.tree.kind = .functionDefinition ∧
      ∃ fn ∈ (ofVisit source foci v).functions, fn.node = v ∧ o ∈ parameters foci v.tree fn.name := by
  unfold ofVisit addVisit at ho ⊢
  split at ho
  case h_1 hkind =>
    rw [hkind]
    unfold addFunction at ho ⊢
    split at ho
    case h_1 => cases ho
    case h_2 f hf => exact ⟨rfl, by simpa [hf, empty] using ho⟩
  case h_2 =>
    obtain ⟨d, -, rfl⟩ := List.mem_map.1 ho
    exact absurd hscope (scopeOf_ne_parameter v.above)
  all_goals cases ho

end Facts

namespace Analysis

/-- The names of variables, parameters and prototypes. -/
def declaredNames (a : Analysis) : List Name := a.facts.objects.map VariableFact.name ++ a.facts.prototypes

section

variable {s : Source}

theorem visit_ownedBy (herrors : (of s).delimiterErrors = []) {v : Visit} (hv : v ∈ (of s).visits) :
    Name.OwnedBy (of s).foci v.tree ((Facts.ofVisit s (of s).foci v).objects.map VariableFact.name ++
      (Facts.ofVisit s (of s).foci v).prototypes) := by
  refine Facts.objects_ownedBy (foci_consecutive s) (fun hkind ↦ ?_) s
  exact Tree.ownsParameters_ofFoci herrors v.tree (List.mem_map_of_mem hv) (by rw [hkind]; rfl)

theorem declaredNames_perm (s : Source) : (of s).declaredNames.Perm ((of s).visits.flatMap fun v ↦
    (Facts.ofVisit s (of s).foci v).objects.map VariableFact.name ++ (Facts.ofVisit s (of s).foci v).prototypes) := by
  rw [declaredNames, objects_eq, prototypes_eq, List.map_flatMap]
  exact List.flatMap_append_perm _ _ _

theorem declaredNames_identifier {n : Name} (hn : n ∈ (of s).declaredNames) :
    ∃ t, (of s).tokens[n.token]? = some t ∧ t.isIdentifier = true ∧ t.text = n.text := by
  obtain ⟨v, -, hn⟩ := List.mem_flatMap.1 ((declaredNames_perm s).subset hn)
  obtain ⟨f, ⟨hf, hid⟩, rfl⟩ := Facts.objects_from (fun f hf hid ↦ And.intro hf hid) s v n hn
  exact ⟨f.token, (Focus.around (List.mem_toArray.1 hf)).2.1, hid, rfl⟩

/-- Where no delimiter is wrong, what is declared are identifiers, each declared once, and a parameter
stands in its function before the body. -/
theorem declared_once (herrors : (of s).delimiterErrors = []) :
    ((of s).declaredNames.map Name.token).Nodup ∧
      (∀ n ∈ (of s).declaredNames, ∃ t, (of s).tokens[n.token]? = some t ∧ t.isIdentifier = true ∧ t.text = n.text) ∧
      ∀ o ∈ (of s).facts.objects, o.scope = .parameter →
        ∃ fn ∈ (of s).facts.functions, o ∈ Facts.parameters (of s).foci fn.node.tree fn.name ∧
          fn.node.tree.kind = .functionDefinition ∧ fn.node.tree.start ≤ o.name.token ∧
          o.name.token < fn.node.tree.stop ∧
          ∀ c ∈ fn.node.tree.children, ¬(c.start ≤ o.name.token ∧ o.name.token < c.stop) := by
  have hapart := Name.apart_flatMap (visits_apart s) fun v hv ↦ visit_ownedBy herrors hv
  refine ⟨(hapart.perm (declaredNames_perm s)).nodup, fun n hn ↦ declaredNames_identifier hn, fun o ho hscope ↦ ?_⟩
  rw [objects_eq] at ho
  obtain ⟨v, hv, ho⟩ := List.mem_flatMap.1 ho
  obtain ⟨hkind, fn, hfn, rfl, hparameter⟩ := Facts.exists_of_parameter ho hscope
  obtain ⟨hstart, hstop, houtside⟩ := (visit_ownedBy herrors hv).owns o.name
    (List.mem_append_left _ (List.mem_map_of_mem ho))
  refine ⟨fn, ?_, hparameter, hkind, hstart, hstop, fun c hc ↦ houtside c.head (List.mem_map_of_mem hc)⟩
  rw [functions_eq]
  exact List.mem_flatMap.2 ⟨fn.node, hv, hfn⟩

end

/-- Two parameters, one of them a pointer to a function, a local variable, a variable and a prototype. -/
theorem declared_once_pointer :
    ∃ s : Source, s.bytes = Text.bytesOf "int f(int a,int(*b)(int c))\x7bint d;\x7dint e,g(int h);" ∧
      (of s).delimiterErrors = [] ∧ (of s).declaredNames.map Name.text = ["a", "b", "d", "e", "g"] ∧
      ((of s).declaredNames.map Name.token).Nodup ∧
      ∃ o ∈ (of s).facts.objects, o.scope = .parameter ∧ o.name.text = "b" ∧
        ∃ fn ∈ (of s).facts.functions, o ∈ Facts.parameters (of s).foci fn.node.tree fn.name ∧
          o.name.token < fn.node.tree.stop ∧
          ∀ c ∈ fn.node.tree.children, ¬(c.start ≤ o.name.token ∧ o.name.token < c.stop) := by
  let s : Source := ⟨"", Text.bytesOf "int f(int a,int(*b)(int c))\x7bint d;\x7dint e,g(int h);"⟩
  have herrors : (of s).delimiterErrors = [] := by decide +kernel
  have hparameter : ∃ o ∈ (of s).facts.objects, o.scope = .parameter ∧ o.name.text = "b" := by decide +kernel
  obtain ⟨hnodup, -, hparameters⟩ := declared_once herrors
  obtain ⟨o, ho, hscope, htext⟩ := hparameter
  obtain ⟨fn, hfn, hmem, -, -, hstop, houtside⟩ := hparameters o ho hscope
  exact ⟨s, rfl, herrors, by decide +kernel, hnodup, o, ho, hscope, htext, fn, hfn, hmem, hstop, houtside⟩

end Analysis

end CodeStyle
