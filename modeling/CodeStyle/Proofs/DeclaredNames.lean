import CodeStyle.Analysis
import CodeStyle.Proofs.FactNames
import CodeStyle.Proofs.OwnTokens

/-!
Which names a file declares more than once. A declaration is read from tokens that its node owns, and each
of its names from another token. So names of functions, prototypes, types and tags are never listed
twice, nor are the variables of a file. Parameters and enumeration constants are read from the
tokens between brackets, which other nodes may own as well.
-/

namespace CodeStyle

namespace Specifiers

/-- The tag that is named, if one is. -/
def tagName (s : Specifiers) : Option Name := s.tag.bind Prod.snd

end Specifiers

namespace Declaration

variable {code part : List Focus} {f : Focus}

/-- Specifiers are read off the front of a declaration, the last tag among them. -/
theorem specifiers_split (body : Option Nat) (pos : Nat) (hasBase : Bool) (s : Specifiers) (code : List Focus) :
    ∃ front, code = front ++ (specifiers body pos hasBase s code).2.2 ∧
      ∀ n ∈ (specifiers body pos hasBase s code).1.tagName, n ∈ s.tagName ∨ n.From (· ∈ front) := by
  fun_induction specifiers body pos hasBase s code with
  | case1 => exact ⟨[], rfl, fun n hn ↦ .inl hn⟩
  | case2 _ _ s f => exact ⟨[f], rfl, by simp [Specifiers.tagName]⟩
  | case3 _ _ s f _ _ kind _ tag rest _ ih =>
    obtain ⟨front, hfront, hname⟩ := ih
    refine ⟨f :: tag :: front, congrArg (f :: tag :: ·) hfront, fun n hn ↦ .inr ?_⟩
    rcases hname n hn with hn | ⟨q, hq, rfl⟩
    · cases hn
      exact ⟨tag, by simp, rfl⟩
    · exact ⟨q, by simp [hq], rfl⟩
  | case4 _ _ s f _ _ kind _ tag rest _ ih =>
    obtain ⟨front, hfront, hname⟩ := ih
    refine ⟨f :: front, congrArg (f :: ·) hfront, fun n hn ↦ .inr ?_⟩
    rcases hname n hn with hn | ⟨q, hq, rfl⟩
    · cases hn
    · exact ⟨q, by simp [hq], rfl⟩
  | case5 _ _ s f rest _ _ _ _ ih | case7 _ _ s f rest _ _ _ _ _ ih =>
    obtain ⟨front, hfront, hname⟩ := ih
    refine ⟨f :: front, congrArg (f :: ·) hfront, fun n hn ↦ ?_⟩
    rcases hname n hn with hn | ⟨q, hq, rfl⟩
    · exact .inl hn
    · exact .inr ⟨q, by simp [hq], rfl⟩
  | case6 | case8 | case9 => exact ⟨[], rfl, fun n hn ↦ .inl hn⟩

theorem flatten_splitCommas (depth : Nat) (code : List Focus) : (splitCommas depth code).flatten.Sublist code := by
  fun_induction splitCommas depth code with
  | case1 => exact .slnil
  | case2 _ g rest _ ih => exact ih.cons g
  | case3 _ g rest => simp
  | case4 _ g rest _ first parts hsplit ih =>
    rw [hsplit] at ih
    exact ih.cons_cons g

/-- Where each part gives at most one name, and one of its own, no name is read from a token before. -/
theorem filterMap_sublist {name? : List Focus → Option Name}
    (hname : ∀ part n, name? part = some n → n.From (· ∈ part)) (parts : List (List Focus)) :
    (parts.filterMap name?).Sublist (parts.flatten.map Name.ofFocus) := by
  induction parts with
  | nil => exact .slnil
  | cons part parts ih =>
    rw [List.flatten_cons, List.map_append]
    cases hn : name? part with
    | none =>
      rw [List.filterMap_cons_none hn]
      exact ih.trans (List.sublist_append_right _ _)
    | some n =>
      obtain ⟨f, hf, rfl⟩ := hname part n hn
      rw [List.filterMap_cons_some hn]
      exact (List.singleton_sublist.2 (List.mem_map_of_mem hf)).append ih

theorem names_sublist (parts : List (List Focus)) :
    ((parts.filterMap declarator?).map Declarator.name).Sublist (parts.flatten.map Name.ofFocus) := by
  rw [List.map_filterMap]
  refine filterMap_sublist (fun part n hn ↦ ?_) parts
  obtain ⟨d, hd, rfl⟩ := Option.map_eq_some_iff.1 hn
  exact declarator_from (fun f hf _ ↦ hf) hd

/-- The names that a declaration gives, its tag first. -/
def names (code : List Focus) (body : Option Nat) : List Name :=
  (read code body).1.tagName.toList ++ (read code body).2.map Declarator.name

theorem names_sublist_code (code : List Focus) (body : Option Nat) :
    (names code body).Sublist (code.map Name.ofFocus) := by
  obtain ⟨front, hfront, hname⟩ := specifiers_split body 0 false noSpecifiers code
  have htag : (read code body).1.tagName.toList.Sublist (front.map Name.ofFocus) := by
    cases htag : (read code body).1.tagName with
    | none => exact List.nil_sublist _
    | some n =>
      rcases hname n htag with hn | ⟨f, hf, rfl⟩
      · cases hn
      · exact List.singleton_sublist.2 (List.mem_map_of_mem hf)
  have hrest : ((read code body).2.map Declarator.name).Sublist
      ((specifiers body 0 false noSpecifiers code).2.2.map Name.ofFocus) := by
    unfold read
    dsimp only
    split
    · exact (names_sublist _).trans ((flatten_splitCommas 0 _).map _)
    · exact List.nil_sublist _
  conv_rhs => rw [hfront, List.map_append]
  exact htag.append hrest

end Declaration

theorem Focus.Consecutive.nodup {i : Nat} {region : List Focus} (h : Consecutive i region) :
    (region.map Focus.index).Nodup := by
  induction region generalizing i with
  | nil => exact .nil
  | cons f rest ih =>
    refine List.nodup_cons.2 ⟨fun hf ↦ ?_, ih h.tail⟩
    obtain ⟨q, hq, hindex⟩ := List.mem_map.1 hf
    have hlow := (h.tail.index_mem hq).1
    have hfirst := h.head
    omega

theorem Focus.Consecutive.index_of_getElem? {foci : Array Focus} (h : Consecutive 0 foci.toList) {i : Nat} {f : Focus}
    (hf : foci[i]? = some f) : f.index = i :=
  (h i f (by rwa [Array.getElem?_toList])).trans (Nat.zero_add i)

/-- Names that a node gives to tokens of its own, each of them to another one. -/
structure Name.OwnedBy (foci : Array Focus) (t : Tree) (ns : List Name) : Prop where
  nodup : (ns.map Name.token).Nodup
  owns : ∀ n ∈ ns, t.Owns n.token
  source : ∀ n ∈ ns, n.From (· ∈ foci)

namespace Name.OwnedBy

variable {foci : Array Focus} {t : Tree} {ns ms : List Name}

theorem nil : OwnedBy foci t [] := ⟨.nil, by simp, by simp⟩

theorem subperm (h : OwnedBy foci t ns) (hs : ms.Subperm ns) : OwnedBy foci t ms := by
  refine ⟨?_, fun n hn ↦ h.owns n (hs.subset hn), fun n hn ↦ h.source n (hs.subset hn)⟩
  obtain ⟨ks, hperm, hsub⟩ := hs
  exact (hperm.map Name.token).nodup_iff.1 (h.nodup.sublist (hsub.map Name.token))

end Name.OwnedBy

/-- The names that a type gets, its tag last. -/
def TypeFact.names (t : TypeFact) : List Name := t.typeName.toList ++ t.tag.toList

namespace Facts

variable {foci : Array Focus} {t : Tree} {source : Source}

theorem foci_of_consecutive (hc : Focus.Consecutive 0 foci.toList) (t : Tree) :
    Focus.Consecutive t.start (t.foci foci) := by
  rw [Tree.foci, Array.toList_extract]
  have h := (hc.drop t.start).take (t.stop - t.start)
  rwa [Nat.zero_add] at h

theorem declarationCode_sublist (foci : Array Focus) (t : Tree) :
    (declarationCode foci t).1.Sublist ((t.foci foci).filter fun f ↦
      f.isCode && !t.children.any fun c ↦ c.start ≤ f.index && f.index < c.stop) := by
  unfold declarationCode
  dsimp only
  split
  · exact List.dropLast_sublist _
  · exact .refl _

/-- The names that the declaration at a node gives. -/
def declared (foci : Array Focus) (t : Tree) : List Name :=
  Declaration.names (declarationCode foci t).1 (declarationCode foci t).2

theorem declared_ownedBy (hc : Focus.Consecutive 0 foci.toList) (t : Tree) :
    Name.OwnedBy foci t (declared foci t) := by
  have hcode := declarationCode_sublist foci t
  have hnames := Declaration.names_sublist_code (declarationCode foci t).1 (declarationCode foci t).2
  have hregion := foci_of_consecutive hc t
  have hmem : ∀ n ∈ declared foci t, ∃ f ∈ (t.foci foci).filter fun f ↦
      f.isCode && !t.children.any fun c ↦ c.start ≤ f.index && f.index < c.stop, n = Name.ofFocus f := by
    intro n hn
    obtain ⟨f, hf, rfl⟩ := List.mem_map.1 (hnames.subset hn)
    exact ⟨f, hcode.subset hf, rfl⟩
  refine ⟨?_, fun n hn ↦ ?_, fun n hn ↦ ?_⟩
  · have hsub := (hnames.trans ((hcode.trans List.filter_sublist).map Name.ofFocus)).map Name.token
    rw [List.map_map] at hsub
    exact hregion.nodup.sublist hsub
  · obtain ⟨f, hf, rfl⟩ := hmem n hn
    obtain ⟨hf, houtside⟩ := List.mem_filter.1 hf
    obtain ⟨hlow, hhigh⟩ := hregion.index_mem hf
    have hlength : (t.foci foci).length ≤ t.stop - t.start := by
      rw [Tree.foci, Array.toList_extract]
      exact List.length_take_le _ _
    refine ⟨hlow, by change f.index < t.stop; omega, fun c hc hin ↦ ?_⟩
    obtain ⟨u, hu, rfl⟩ := List.mem_map.1 hc
    simp only [Bool.and_eq_true, Bool.not_eq_true', List.any_eq_false, decide_eq_true_eq] at houtside
    exact houtside.2 u hu hin
  · obtain ⟨f, hf, rfl⟩ := hmem n hn
    exact ⟨f, mem_foci (List.mem_filter.1 hf).1, rfl⟩

def append (a b : Facts) : Facts :=
  ⟨a.lines ++ b.lines, a.functions ++ b.functions, a.objects ++ b.objects, a.prototypes ++ b.prototypes,
    a.types ++ b.types, a.macros ++ b.macros, a.enumConstants ++ b.enumConstants, a.sections ++ b.sections⟩

theorem append_empty (facts : Facts) : facts.append empty = facts := by
  simp [append, empty]

/-- The facts that one node gives. -/
def ofVisit (source : Source) (foci : Array Focus) (v : Visit) : Facts := addVisit source foci empty v

theorem addVisit_eq (source : Source) (foci : Array Focus) (facts : Facts) (v : Visit) :
    addVisit source foci facts v = facts.append (ofVisit source foci v) := by
  unfold ofVisit addVisit
  split
  · unfold addFunction
    split
    · exact (append_empty facts).symm
    · simp [append, empty]
  · simp [addDeclaration, append, empty]
  · simp [addType, append, empty]
  · simp [addMacro, append, empty]
  · exact (append_empty facts).symm

/-- A list among the facts of a file is put together from what its nodes give. -/
theorem field_foldl {α : Type} (field : Facts → List α) (hfield : ∀ a b, field (a.append b) = field a ++ field b)
    (hempty : field empty = []) (source : Source) (foci : Array Focus) (vs : List Visit) :
    field (vs.foldl (addVisit source foci) empty) = vs.flatMap fun v ↦ field (ofVisit source foci v) := by
  have hfoldl (facts : Facts) : field (vs.foldl (addVisit source foci) facts) =
      field facts ++ vs.flatMap fun v ↦ field (ofVisit source foci v) := by
    induction vs generalizing facts with
    | nil => simp
    | cons v vs ih => rw [List.foldl_cons, ih, addVisit_eq, hfield, List.flatMap_cons, List.append_assoc]
  rw [hfoldl, hempty, List.nil_append]

theorem names_addDeclaration (foci : Array Focus) (v : Visit) :
    ((addDeclaration foci v empty).types.flatMap TypeFact.names).Sublist (declared foci v.tree) ∧
      (addDeclaration foci v empty).prototypes.Sublist (declared foci v.tree) ∧
        ((addDeclaration foci v empty).objects.map VariableFact.name).Sublist (declared foci v.tree) := by
  unfold addDeclaration declared Declaration.names
  dsimp only [empty]
  generalize Declaration.read (declarationCode foci v.tree).1 (declarationCode foci v.tree).2 = r
  refine ⟨?_, ?_, ?_⟩ <;> rw [List.nil_append]
  · split
    case h_1 kind tag _ htag _ =>
      have hname : r.1.tagName = tag := by rw [Specifiers.tagName, htag]; rfl
      rw [hname]
      simp [TypeFact.names]
    case h_2 => exact List.nil_sublist _
  · split
    · exact (List.filter_sublist.map Declarator.name).trans (List.sublist_append_right _ _)
    · exact List.nil_sublist _
  · rw [List.map_map]
    exact (List.filter_sublist.map Declarator.name).trans (List.sublist_append_right _ _)

theorem names_addType (foci : Array Focus) (v : Visit) :
    ((addType foci v empty).types.flatMap TypeFact.names).Subperm (declared foci v.tree) := by
  unfold addType declared Declaration.names
  dsimp only [empty]
  generalize Declaration.read (declarationCode foci v.tree).1 (declarationCode foci v.tree).2 = r
  rw [List.nil_append]
  split
  case h_1 d more _ hr =>
    have hmore : (more.map fun d ↦ (⟨v.tree, r.1.tag.map Prod.fst, none, false, some d.name⟩ : TypeFact)).flatMap
        TypeFact.names = more.map Declarator.name := by
      rw [List.flatMap_map, List.map_eq_flatMap]
      rfl
    rw [List.flatMap_cons, hmore, hr, List.map_cons]
    exact List.perm_middle.symm.subperm
  case h_2 =>
    rw [List.flatMap_singleton]
    exact (List.sublist_append_left _ _).subperm

variable {v : Visit}

theorem types_ownedBy (hc : Focus.Consecutive 0 foci.toList) (source : Source) (v : Visit) :
    Name.OwnedBy foci v.tree ((ofVisit source foci v).types.flatMap TypeFact.names) := by
  have hdeclared := declared_ownedBy hc v.tree
  unfold ofVisit addVisit
  split
  · unfold addFunction
    split <;> exact .nil
  · exact hdeclared.subperm (names_addDeclaration foci v).1.subperm
  · exact hdeclared.subperm (names_addType foci v)
  · exact .nil
  · exact .nil

theorem functions_ownedBy (hc : Focus.Consecutive 0 foci.toList)
    (hname : v.tree.kind = .functionDefinition → ∀ i ∈ v.tree.head.name, v.tree.Owns i) (source : Source) :
    Name.OwnedBy foci v.tree
      ((ofVisit source foci v).functions.map FunctionFact.name ++ (ofVisit source foci v).prototypes) := by
  have hdeclared := declared_ownedBy hc v.tree
  unfold ofVisit addVisit
  split
  case h_1 hkind =>
    unfold addFunction
    split
    case h_1 => exact .nil
    case h_2 f hf =>
      obtain ⟨i, hi, hget⟩ := Option.bind_eq_some_iff.1 hf
      have hindex : f.index = i := hc.index_of_getElem? hget
      refine ⟨by simp [empty], ?_, ?_⟩ <;> intro n hn <;> cases List.mem_singleton.1 hn
      · change v.tree.Owns f.index
        exact hindex ▸ hname hkind i hi
      · exact ⟨f, Array.mem_of_getElem? hget, rfl⟩
  · exact hdeclared.subperm (names_addDeclaration foci v).2.1.subperm
  · exact .nil
  · exact .nil
  · exact .nil

theorem globals_ownedBy (hc : Focus.Consecutive 0 foci.toList) (source : Source) (v : Visit) :
    Name.OwnedBy foci v.tree (((ofVisit source foci v).objects.filter (·.scope == .file)).map VariableFact.name) := by
  have hdeclared := declared_ownedBy hc v.tree
  unfold ofVisit addVisit
  split
  · unfold addFunction
    split
    case h_1 => exact .nil
    case h_2 f hf =>
      have hnone : (parameters foci v.tree (Name.ofFocus f)).filter (·.scope == .file) = [] := by
        rw [List.filter_eq_nil_iff]
        intro o ho
        obtain ⟨part, -, ho⟩ := List.mem_filterMap.1 ho
        obtain ⟨d, -, rfl⟩ := Option.map_eq_some_iff.1 ho
        exact (by decide : ¬(VariableScope.parameter == .file) = true)
      rw [List.filter_append, hnone]
      exact .nil
  · exact hdeclared.subperm ((List.filter_sublist.map _).trans (names_addDeclaration foci v).2.2).subperm
  · exact .nil
  · exact .nil
  · exact .nil

end Facts

/-- Names of different tokens of a file. -/
structure Name.Apart (foci : Array Focus) (ns : List Name) : Prop where
  nodup : (ns.map Name.token).Nodup
  source : ∀ n ∈ ns, n.From (· ∈ foci)

theorem Name.Apart.perm {foci : Array Focus} {ns ms : List Name} (h : Apart foci ns) (hperm : ms.Perm ns) :
    Apart foci ms :=
  ⟨(hperm.map Name.token).nodup_iff.2 h.nodup, fun n hn ↦ h.source n (hperm.subset hn)⟩

/-- What nodes of a tree give to tokens of their own is given once. -/
theorem Name.apart_flatMap {foci : Array Focus} {vs : List Visit} {ns : Visit → List Name}
    (hvs : (vs.map Visit.tree).Pairwise fun t u ↦ ∀ i, t.Owns i → ¬u.Owns i)
    (h : ∀ v ∈ vs, OwnedBy foci v.tree (ns v)) : Apart foci (vs.flatMap ns) := by
  constructor
  · rw [List.map_flatMap]
    refine List.nodup_flatMap.2 ⟨fun v hv ↦ (h v hv).nodup, ?_⟩
    refine (List.pairwise_map.1 hvs).imp_of_mem fun {v w} hv hw hapart i hi hj ↦ ?_
    obtain ⟨n, hn, rfl⟩ := List.mem_map.1 hi
    obtain ⟨m, hm, heq⟩ := List.mem_map.1 hj
    exact hapart n.token ((h v hv).owns n hn) (heq ▸ (h w hw).owns m hm)
  · intro n hn
    obtain ⟨v, hv, hn⟩ := List.mem_flatMap.1 hn
    exact (h v hv).source n hn

namespace Analysis

variable (s : Source)

theorem foci_consecutive : Focus.Consecutive 0 (of s).foci.toList := by
  exact Focus.all_consecutive s.tokens

theorem visits_apart : ((of s).visits.map Visit.tree).Pairwise fun t u ↦ ∀ i, t.Owns i → ¬u.Owns i :=
  Tree.owns_ofFoci s.tokens

theorem objects_eq : (of s).facts.objects = (of s).visits.flatMap fun v ↦ (Facts.ofVisit s (of s).foci v).objects :=
  Facts.field_foldl Facts.objects (fun _ _ ↦ rfl) rfl s _ _

theorem functions_eq :
    (of s).facts.functions = (of s).visits.flatMap fun v ↦ (Facts.ofVisit s (of s).foci v).functions :=
  Facts.field_foldl Facts.functions (fun _ _ ↦ rfl) rfl s _ _

theorem prototypes_eq :
    (of s).facts.prototypes = (of s).visits.flatMap fun v ↦ (Facts.ofVisit s (of s).foci v).prototypes :=
  Facts.field_foldl Facts.prototypes (fun _ _ ↦ rfl) rfl s _ _

theorem types_apart : Name.Apart (of s).foci ((of s).facts.types.flatMap TypeFact.names) := by
  have htypes : (of s).facts.types = (of s).visits.flatMap fun v ↦ (Facts.ofVisit s (of s).foci v).types :=
    Facts.field_foldl Facts.types (fun _ _ ↦ rfl) rfl s _ _
  rw [htypes, List.flatMap_assoc]
  exact Name.apart_flatMap (visits_apart s) fun v _ ↦ Facts.types_ownedBy (foci_consecutive s) s v

theorem globals_apart :
    Name.Apart (of s).foci (((of s).facts.objects.filter (·.scope == .file)).map VariableFact.name) := by
  rw [objects_eq, List.filter_flatMap, List.map_flatMap]
  exact Name.apart_flatMap (visits_apart s) fun v _ ↦ Facts.globals_ownedBy (foci_consecutive s) s v

theorem functions_apart :
    Name.Apart (of s).foci ((of s).facts.functions.map FunctionFact.name ++ (of s).facts.prototypes) := by
  rw [functions_eq, prototypes_eq, List.map_flatMap]
  refine Name.Apart.perm (Name.apart_flatMap (visits_apart s) fun v hv ↦ ?_) (List.flatMap_append_perm _ _ _)
  refine Facts.functions_ownedBy (foci_consecutive s) (fun hkind ↦ ?_) s
  exact (Tree.itemized_ofFoci s.tokens v.tree (List.mem_map_of_mem hv) (by rw [hkind]; rfl)).name

end Analysis

end CodeStyle
