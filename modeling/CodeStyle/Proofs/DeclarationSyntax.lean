import CodeStyle.Facts.Declaration
import CodeStyle.Proofs.Delimiters

/-!
The syntax of declarations. A form is a declaration taken apart: the specifiers, and for each declarator
its stars, its name, the groups behind the name and the value. Reading the tokens of a form gives back
what it says.
-/

namespace CodeStyle.Declaration

/-- No token of the region outside brackets has the property, if what is open before is `stack`. -/
def Absent (p : Focus → Bool) (stack : List Char) (region : List Focus) : Prop :=
  ∀ front f back, region = front ++ f :: back → nest stack front = some [] → p f = false

/-- A bracket, the one that closes it, and the tokens between them. -/
structure Group (opening closing : String) where
  opens : Focus
  content : List Focus
  closes : Focus
  opens_isPunct : opens.token.isPunct opening = true
  closes_isPunct : closes.token.isPunct closing = true
  nested : Nested content

def Group.tokens {opening closing : String} (g : Group opening closing) : List Focus :=
  g.opens :: (g.content ++ [g.closes])

/-- What stands behind the name. A star behind the parenthesis would make it a pointer to a function. -/
inductive Suffix where
  | bounds (groups : List (Group "[" "]"))
  | parameters (group : Group "(" ")") (starless : group.content.head?.any (·.token.isPunct "*") = false)

namespace Suffix

def tokens : Suffix → List Focus
  | bounds groups => groups.flatMap Group.tokens
  | parameters group _ => group.tokens

def isFunction : Suffix → Bool
  | bounds _ => false
  | parameters _ _ => true

end Suffix

structure Initializer where
  equals : Focus
  value : List Focus
  equals_isPunct : equals.token.isPunct "=" = true
  nested : Nested value
  commaless : Absent (·.token.isPunct ",") [] value

structure DeclaratorForm where
  stars : List Focus
  name : Focus
  suffix : Suffix
  initializer : Option Initializer
  stars_isPunct : ∀ f ∈ stars, f.token.isPunct "*" = true
  name_isIdentifier : name.token.isIdentifier = true

namespace DeclaratorForm

/-- The part before the value. -/
def head (d : DeclaratorForm) : List Focus := d.stars ++ d.name :: d.suffix.tokens

def tokens (d : DeclaratorForm) : List Focus :=
  d.head ++ (d.initializer.map fun i ↦ i.equals :: i.value).getD []

def declarator (d : DeclaratorForm) : Declarator := ⟨Name.ofFocus d.name, d.stars.length, d.suffix.isFunction⟩

end DeclaratorForm

/-- How a type is named. -/
inductive BaseForm where
  | words (first : Focus) (more : List Focus)
    (isBase : ∀ f ∈ first :: more, f.token.kind = .keyword ∧ f.token.text ∈ baseTypes)
  | named (name : Focus) (isIdentifier : name.token.isIdentifier = true)
  | tagged (kind : TagKind) (keyword tag : Focus) (isKeyword : keyword.token.isKeyword kind.word = true)
    (isIdentifier : tag.token.isIdentifier = true)

namespace BaseForm

def tokens : BaseForm → List Focus
  | words first more _ => first :: more
  | named name _ => [name]
  | tagged _ keyword tag _ _ => [keyword, tag]

def tag? : BaseForm → Option (TagKind × Option Name)
  | words _ _ _ => none
  | named _ _ => none
  | tagged kind _ tag _ _ => some (kind, some (Name.ofFocus tag))

end BaseForm

structure SpecifierForm where
  qualifiers : List Focus
  base : BaseForm
  isQualifier : ∀ f ∈ qualifiers, f.token.kind = .keyword ∧ f.token.text ∈ ["static", "extern", "const", "volatile"]

namespace SpecifierForm

def tokens (s : SpecifierForm) : List Focus := s.qualifiers ++ s.base.tokens

def has (s : SpecifierForm) (word : String) : Bool := s.tokens.any (·.token.isKeyword word)

def specifiers (s : SpecifierForm) : Specifiers where
  isTypedef := false
  isStatic := s.has "static"
  isExtern := s.has "extern"
  isConst := s.has "const"
  tag := s.base.tag?

end SpecifierForm

structure Form where
  specifiers : SpecifierForm
  first : DeclaratorForm
  /-- Further declarators, each behind its comma. -/
  more : List (Focus × DeclaratorForm)
  commas_isPunct : ∀ m ∈ more, m.1.token.isPunct "," = true

namespace Form

def tokens (d : Form) : List Focus :=
  d.specifiers.tokens ++ (d.first.tokens ++ d.more.flatMap fun m ↦ m.1 :: m.2.tokens)

def declarators (d : Form) : List Declarator := (d.first :: d.more.map Prod.snd).map DeclaratorForm.declarator

end Form

section Depth

variable {p : Focus → Bool} {f : Focus} {stack stack' : List Char} {front back region : List Focus}

theorem isOpening_eq (f : Focus) : isOpening f = f.token.opens?.isSome := by
  unfold isOpening Token.opens?
  cases f.token.isPunct "(" <;> cases f.token.isPunct "[" <;> cases f.token.isPunct "\x7b" <;> rfl

theorem isClosing_eq (f : Focus) : isClosing f = f.token.closes?.isSome := by
  unfold isClosing Token.closes?
  cases f.token.isPunct ")" <;> cases f.token.isPunct "]" <;> cases f.token.isPunct "\x7d" <;> rfl

/-- The depth of the readers is the number of brackets that are open. -/
theorem bracketDepth_eq (h : nestStep stack f = some stack') : bracketDepth stack.length f = stack'.length := by
  unfold bracketDepth
  rw [isOpening_eq, isClosing_eq]
  cases ho : f.token.opens? with
  | some c =>
    rw [nestStep_opens ho] at h
    cases h
    rfl
  | none =>
    cases hc : f.token.closes? with
    | some c =>
      obtain rfl := nestStep_closed ho hc h
      rfl
    | none =>
      rw [nestStep_bare ⟨ho, hc⟩] at h
      cases h
      rfl

theorem Absent.head (h : Absent p stack (f :: region)) : (stack.length == 0 && p f) = false := by
  cases stack with
  | nil => simpa using h [] f region rfl rfl
  | cons c stack => rfl

theorem Absent.tail (h : Absent p stack (f :: region)) (hstep : nestStep stack f = some stack') :
    Absent p stack' region := by
  intro front g back he hfront
  refine h (f :: front) g back (by rw [he, List.cons_append]) ?_
  rw [nest_cons, hstep, Option.bind_some, hfront]

theorem Absent.of_forall (h : ∀ f ∈ region, p f = false) (stack : List Char) : Absent p stack region := by
  rintro front f back rfl -
  exact h f (by simp)

theorem Absent.append (hfront : Absent p stack front) (hnest : nest stack front = some stack')
    (hback : Absent p stack' back) : Absent p stack (front ++ back) := by
  intro before f behind he hbefore
  -- `f` stands in the back, is its first token, or stands in the front
  rcases List.append_eq_append_iff.1 he with ⟨part, rfl, hpart⟩ | ⟨part, rfl, hpart⟩
  · refine hback part f behind hpart ?_
    rw [nest_append, hnest, Option.bind_some] at hbefore
    exact hbefore
  · cases part with
    | nil =>
      rw [List.append_nil] at hnest
      rw [hnest] at hbefore
      cases hbefore
      exact hback [] f behind hpart.symm rfl
    | cons g part =>
      obtain ⟨rfl, -⟩ := List.cons.inj hpart
      exact hfront before f part rfl hbefore

/-- Inside a bracket nothing is outside of all brackets. -/
theorem Absent.inside {c : Char} (h : Nested region) (p : Focus → Bool) : Absent p [c] region := by
  rintro front f back rfl hfront
  rw [Nested, nest_append] at h
  obtain ⟨open', hopen, -⟩ := Option.bind_eq_some_iff.1 h
  have hstack := nest_append_stack hopen [c]
  rw [List.nil_append, hfront, Option.some.injEq] at hstack
  simp at hstack

theorem Absent.group {opening closing : String} {c : Char} (g : Group opening closing)
    (ho : g.opens.token.opens? = some c) (hopens : p g.opens = false) (hcloses : p g.closes = false) :
    Absent p [] g.tokens := by
  have hopen : Absent p [] [g.opens] := .of_forall (by simpa using hopens) []
  have hclose : Absent p [c] [g.closes] := .of_forall (by simpa using hcloses) [c]
  have hcontent := (Absent.inside g.nested p).append (nest_of_nested g.nested [c]) hclose
  exact hopen.append ((nest_singleton [] _).trans (nestStep_opens ho)) hcontent

/-- What has no comma outside brackets goes before the first part. -/
theorem splitCommas_front (hnest : nest stack front = some stack') (hfront : Absent (·.token.isPunct ",") stack front)
    {part : List Focus} {parts : List (List Focus)} (hback : splitCommas stack'.length back = part :: parts) :
    splitCommas stack.length (front ++ back) = (front ++ part) :: parts := by
  induction front generalizing stack with
  | nil =>
    cases hnest
    exact hback
  | cons g front ih =>
    rw [nest_cons] at hnest
    obtain ⟨next, hstep, hnest⟩ := Option.bind_eq_some_iff.1 hnest
    rw [List.cons_append, splitCommas, hfront.head, bracketDepth_eq hstep, ih hnest (hfront.tail hstep)]
    rfl

theorem beforeValue_front (hnest : nest stack front = some stack')
    (hfront : Absent (fun f ↦ f.token.isPunct "=" || f.token.isPunct ":") stack front) (back : List Focus) :
    beforeValue stack.length (front ++ back) = front ++ beforeValue stack'.length back := by
  induction front generalizing stack with
  | nil =>
    cases hnest
    rfl
  | cons g front ih =>
    rw [nest_cons] at hnest
    obtain ⟨next, hstep, hnest⟩ := Option.bind_eq_some_iff.1 hnest
    rw [List.cons_append, beforeValue, hfront.head, bracketDepth_eq hstep, ih hnest (hfront.tail hstep)]
    rfl

end Depth

/-- The tokens that a declarator may have outside brackets before its value. -/
def isHeadMark (f : Focus) : Bool := f.token.isIdentifier || ["*", "(", ")", "[", "]"].any f.token.isPunct

section Marks

variable {f : Focus} {text : String}

theorem isPunct_of_isIdentifier (h : f.token.isIdentifier = true) (text : String) : f.token.isPunct text = false := by
  rw [Token.isPunct, eq_of_beq h]
  rfl

theorem isHeadMark_of_isPunct (h : f.token.isPunct text = true) (ht : text ∈ ["*", "(", ")", "[", "]"]) :
    isHeadMark f = true :=
  Bool.or_eq_true_iff.2 (.inr (List.any_eq_true.2 ⟨text, ht, h⟩))

theorem isPunct_of_isHeadMark (h : isHeadMark f = true) (ht : text ∉ ["*", "(", ")", "[", "]"]) :
    f.token.isPunct text = false := by
  rcases Bool.or_eq_true_iff.1 h with h | h
  · exact isPunct_of_isIdentifier h text
  · obtain ⟨other, hother, h⟩ := List.any_eq_true.1 h
    exact Token.isPunct_eq_false h (by rintro rfl; exact ht hother)

theorem bare_of_isIdentifier (h : f.token.isIdentifier = true) : f.Bare :=
  .of_isPunct_eq_false fun text _ ↦ isPunct_of_isIdentifier h text

end Marks

/-- A nested region with nothing else than such tokens outside brackets. -/
structure IsHead (region : List Focus) : Prop where
  nested : Nested region
  absent : Absent (!isHeadMark ·) [] region

namespace IsHead

variable {front back region : List Focus}

theorem append (hfront : IsHead front) (hback : IsHead back) : IsHead (front ++ back) :=
  ⟨(nest_nested_append hfront.nested [] back).trans hback.nested, hfront.absent.append hfront.nested hback.absent⟩

theorem of_bare (h : ∀ f ∈ region, f.Bare ∧ isHeadMark f = true) : IsHead region :=
  ⟨nested_of_bare fun f hf ↦ (h f hf).1, .of_forall (fun f hf ↦ by rw [(h f hf).2]; rfl) []⟩

theorem flatMap {α : Type} {parts : List α} {g : α → List Focus} (h : ∀ a ∈ parts, IsHead (g a)) :
    IsHead (parts.flatMap g) := by
  induction parts with
  | nil => exact of_bare (by simp)
  | cons a parts ih =>
    rw [List.flatMap_cons]
    exact (h a List.mem_cons_self).append (ih fun b hb ↦ h b (List.mem_cons_of_mem a hb))

theorem group {opening closing : String} {c : Char} (g : Group opening closing)
    (hopening : opening ∈ ["*", "(", ")", "[", "]"]) (hclosing : closing ∈ ["*", "(", ")", "[", "]"])
    (ho : g.opens.token.opens? = some c) (hn : g.closes.token.opens? = none)
    (hc : g.closes.token.closes? = some c) : IsHead g.tokens := by
  refine ⟨g.nested.group ho hn hc, .group g ho ?_ ?_⟩
  · rw [isHeadMark_of_isPunct g.opens_isPunct hopening]
    rfl
  · rw [isHeadMark_of_isPunct g.closes_isPunct hclosing]
    rfl

theorem absent_of {p : Focus → Bool} (h : IsHead region) (hp : ∀ f, isHeadMark f = true → p f = false) :
    Absent p [] region :=
  fun front f back he hfront ↦ hp f (by simpa using h.absent front f back he hfront)

theorem commaless (h : IsHead region) : Absent (·.token.isPunct ",") [] region :=
  h.absent_of fun _ hf ↦ isPunct_of_isHeadMark hf (by decide)

theorem valueless (h : IsHead region) : Absent (fun f ↦ f.token.isPunct "=" || f.token.isPunct ":") [] region :=
  h.absent_of fun _ hf ↦ by rw [isPunct_of_isHeadMark hf (by decide), isPunct_of_isHeadMark hf (by decide)]; rfl

end IsHead

namespace Suffix

theorem isHead (s : Suffix) : IsHead s.tokens := by
  cases s with
  | bounds groups =>
    exact .flatMap fun g _ ↦ .group g (by decide) (by decide) (Token.opens?_of_isPunct g.opens_isPunct)
      (Token.opens?_of_isPunct g.closes_isPunct) (Token.closes?_of_isPunct g.closes_isPunct)
  | parameters g _ =>
    exact .group g (by decide) (by decide) (Token.opens?_of_isPunct g.opens_isPunct)
      (Token.opens?_of_isPunct g.closes_isPunct) (Token.closes?_of_isPunct g.closes_isPunct)

theorem opensGroup_head (s : Suffix) : ∀ f ∈ s.tokens.head?, opensGroup f = true := by
  intro f hf
  cases s with
  | bounds groups =>
    cases groups with
    | nil => cases hf
    | cons g groups =>
      cases hf
      rw [opensGroup, g.opens_isPunct, Bool.or_true]
  | parameters g _ =>
    cases hf
    rw [opensGroup, g.opens_isPunct, Bool.true_or]

theorem opensParen_eq (s : Suffix) : s.tokens.head?.any (·.token.isPunct "(") = s.isFunction := by
  cases s with
  | bounds groups =>
    cases groups with
    | nil => rfl
    | cons g groups => exact Token.isPunct_eq_false g.opens_isPunct (by decide)
  | parameters g _ => exact g.opens_isPunct

/-- No suffix is read as the rest of a pointer to a function. -/
theorem no_pointer (s : Suffix) :
    (s.tokens.head?.any (·.token.isPunct "(") && (s.tokens.drop 1).head?.any (·.token.isPunct "*")) = false := by
  rw [opensParen_eq]
  cases s with
  | bounds groups => rfl
  | parameters g starless =>
    cases hcontent : g.content with
    | nil =>
      simpa [tokens, Group.tokens, isFunction, hcontent] using
        Token.isPunct_eq_false g.closes_isPunct (b := "*") (by decide)
    | cons f content => simpa [tokens, Group.tokens, isFunction, hcontent] using starless

end Suffix

namespace DeclaratorForm

theorem isHead (d : DeclaratorForm) : IsHead d.head := by
  have hstars : IsHead d.stars := .of_bare fun f hf ↦
    ⟨.of_isPunct (d.stars_isPunct f hf) (by decide), isHeadMark_of_isPunct (d.stars_isPunct f hf) (by decide)⟩
  have hname : IsHead [d.name] := .of_bare fun f hf ↦ by
    obtain rfl := List.mem_singleton.1 hf
    exact ⟨bare_of_isIdentifier d.name_isIdentifier, Bool.or_eq_true_iff.2 (.inl d.name_isIdentifier)⟩
  exact hstars.append (hname.append d.suffix.isHead)

/-- The commas of a declarator all are inside brackets. -/
theorem commaless (d : DeclaratorForm) : Nested d.tokens ∧ Absent (·.token.isPunct ",") [] d.tokens := by
  unfold tokens
  cases d.initializer with
  | none =>
    rw [Option.map_none, Option.getD_none, List.append_nil]
    exact ⟨d.isHead.nested, d.isHead.commaless⟩
  | some i =>
    have hbare : i.equals.Bare := .of_isPunct i.equals_isPunct (by decide)
    have hequals : Absent (·.token.isPunct ",") [] [i.equals] :=
      .of_forall (by simpa using Token.isPunct_eq_false i.equals_isPunct (b := ",") (by decide)) []
    have hnested : Nested (i.equals :: i.value) := by
      rw [Nested, nest_cons, nestStep_bare hbare, Option.bind_some]
      exact i.nested
    have hvalue : Absent (·.token.isPunct ",") [] (i.equals :: i.value) :=
      hequals.append ((nest_singleton [] _).trans (nestStep_bare hbare)) i.commaless
    exact ⟨(nest_nested_append d.isHead.nested [] _).trans hnested,
      d.isHead.commaless.append d.isHead.nested hvalue⟩

theorem beforeValue_tokens (d : DeclaratorForm) : beforeValue 0 d.tokens = d.head := by
  have hback : beforeValue 0 ((d.initializer.map fun i ↦ i.equals :: i.value).getD []) = [] := by
    cases d.initializer with
    | none => rfl
    | some i => simp [beforeValue, i.equals_isPunct]
  calc beforeValue 0 d.tokens
    _ = d.head ++ beforeValue 0 _ := beforeValue_front d.isHead.nested d.isHead.valueless _
    _ = d.head := by rw [hback, List.append_nil]

theorem takeWhile_head (d : DeclaratorForm) : d.head.takeWhile (!opensGroup ·) = d.stars ++ [d.name] ∧
    d.head.dropWhile (!opensGroup ·) = d.suffix.tokens := by
  have hfront : ∀ f ∈ d.stars ++ [d.name], (!opensGroup f) = true := by
    intro f hf
    rcases List.mem_append.1 hf with hf | hf
    · simp [opensGroup, Token.isPunct_eq (d.stars_isPunct f hf)]
    · obtain rfl := List.mem_singleton.1 hf
      simp [opensGroup, isPunct_of_isIdentifier d.name_isIdentifier]
  have hsplit : d.head = d.stars ++ [d.name] ++ d.suffix.tokens := by simp [head]
  rw [hsplit, List.takeWhile_append_of_pos hfront, List.dropWhile_append_of_pos hfront]
  cases htokens : d.suffix.tokens with
  | nil => simp
  | cons f tail =>
    have hf : opensGroup f = true := d.suffix.opensGroup_head f (by rw [htokens]; rfl)
    simp [hf]

theorem declarator?_tokens (d : DeclaratorForm) : declarator? d.tokens = some d.declarator := by
  have hlast : lastIdentifier (d.stars ++ [d.name]) = some d.name := by
    simp [lastIdentifier, d.name_isIdentifier]
  have hcount : countStars (d.stars ++ [d.name]) = d.stars.length := by
    simpa [countStars, isPunct_of_isIdentifier d.name_isIdentifier] using d.stars_isPunct
  simp only [declarator?, d.beforeValue_tokens, d.takeWhile_head.1, d.takeWhile_head.2]
  rw [if_neg (Bool.eq_false_iff.1 d.suffix.no_pointer), hlast, hcount, d.suffix.opensParen_eq]
  simp [declarator]

end DeclaratorForm

/-- Declarators between commas are read one by one. -/
theorem splitCommas_declarators (first : DeclaratorForm) {more : List (Focus × DeclaratorForm)}
    (hmore : ∀ m ∈ more, m.1.token.isPunct "," = true) :
    splitCommas 0 (first.tokens ++ more.flatMap fun m ↦ m.1 :: m.2.tokens) =
      (first :: more.map Prod.snd).map DeclaratorForm.tokens := by
  obtain ⟨hnested, hcommaless⟩ := first.commaless
  induction more generalizing first with
  | nil =>
    have h : splitCommas 0 (first.tokens ++ []) = [first.tokens ++ []] := splitCommas_front hnested hcommaless rfl
    simpa using h
  | cons m more ih =>
    obtain ⟨hcomma, hmore⟩ := List.forall_mem_cons.1 hmore
    have hback : splitCommas 0 (m.1 :: (m.2.tokens ++ more.flatMap fun m ↦ m.1 :: m.2.tokens)) =
        [] :: (m.2 :: more.map Prod.snd).map DeclaratorForm.tokens := by
      rw [splitCommas, hcomma, ih m.2 hmore m.2.commaless.1 m.2.commaless.2]
      rfl
    have h := splitCommas_front hnested hcommaless hback
    rwa [List.append_nil] at h

section Specifiers

variable {body : Option Nat} {pos : Nat} {hasBase : Bool} {s : Specifiers} {f : Focus} {words rest : List Focus}

/-- A keyword of a declaration that starts no tag. -/
def IsWord (f : Focus) : Prop := f.token.opensDeclaration = true ∧ TagKind.ofKeyword? f.token.text = none

theorem specifiers_words (h : ∀ f ∈ words, IsWord f) :
    specifiers body pos hasBase s (words ++ rest) =
      specifiers body (pos + words.length) (hasBase || words.any fun f ↦ baseTypes.contains f.token.text)
        (words.foldl (fun s f ↦ withKeyword s f.token.text) s) rest := by
  induction words generalizing pos hasBase s with
  | nil => simp
  | cons f words ih =>
    obtain ⟨hopens, htag⟩ := h f List.mem_cons_self
    have hkind : (f.token.kind == .keyword) = true := (Bool.and_eq_true_iff.1 hopens).1
    rw [List.cons_append, specifiers]
    simp only [hkind, htag, hopens, if_true]
    rw [ih fun g hg ↦ h g (List.mem_cons_of_mem f hg)]
    simp only [List.length_cons, List.any_cons, List.foldl_cons, Bool.or_assoc]
    rw [Nat.add_right_comm, Nat.add_assoc]

theorem foldl_withKeyword (words : List Focus) (s : Specifiers) :
    words.foldl (fun s f ↦ withKeyword s f.token.text) s =
      ⟨s.isTypedef || words.any (·.token.text == "typedef"), s.isStatic || words.any (·.token.text == "static"),
        s.isExtern || words.any (·.token.text == "extern"), s.isConst || words.any (·.token.text == "const"),
        s.tag⟩ := by
  induction words generalizing s with
  | nil => simp
  | cons f words ih =>
    rw [List.foldl_cons, ih]
    simp only [withKeyword, List.any_cons, Bool.or_assoc]

theorem specifiers_stop (hf : f.token.kind ≠ .keyword) :
    specifiers body pos true s (f :: rest) = (s, true, f :: rest) := by
  rw [specifiers]
  simp [hf]

/-- An identifier names the type if a declarator follows it. -/
theorem specifiers_named (hf : f.token.isIdentifier = true) {g : Focus}
    (hg : g.token.isIdentifier = true ∨ g.token.isPunct "*" = true) :
    specifiers body pos false s (f :: g :: rest) = specifiers body (pos + 1) true s (g :: rest) := by
  have hkind : f.token.kind = .identifier := eq_of_beq hf
  have hdeclares : (g.token.isIdentifier || g.token.isPunct "*" || g.token.isPunct "(" ||
      g.token.kind == .keyword) = true := by
    rcases hg with hg | hg <;> simp [hg]
  rw [specifiers]
  simp [hkind, hf, hdeclares]

theorem specifiers_tagged {kind : TagKind} (hf : f.token.isKeyword kind.word = true) {tag : Focus}
    (htag : tag.token.isIdentifier = true) (hbody : ∀ b ∈ body, pos + 1 < b) :
    specifiers body pos hasBase s (f :: tag :: rest) =
      specifiers body (pos + 2) true { s with tag := some (kind, some (Name.ofFocus tag)) } rest := by
  obtain ⟨hkind, htext⟩ := Bool.and_eq_true_iff.1 hf
  have hofKeyword : TagKind.ofKeyword? f.token.text = some kind := by
    rw [eq_of_beq htext]
    cases kind <;> rfl
  have hplace : body.all (pos + 1 < ·) = true := by
    cases body with
    | none => rfl
    | some b => simpa using hbody b rfl
  rw [specifiers]
  simp [hkind, hofKeyword, hplace, htag]

theorem any_text_eq_false {table : List String} (h : ∀ f ∈ words, f.token.text ∈ table) {p : String → Bool}
    (hp : ∀ word ∈ table, p word = false) : (words.any fun f ↦ p f.token.text) = false := by
  simpa using fun f hf ↦ hp _ (h f hf)

end Specifiers

theorem isWord_of_mem {table : List String} (htable : ∀ word ∈ table,
      Token.declarationKeywords.contains word = true ∧ TagKind.ofKeyword? word = none) {f : Focus}
    (hf : f.token.kind = .keyword ∧ f.token.text ∈ table) : IsWord f := by
  obtain ⟨hopens, htag⟩ := htable _ hf.2
  exact ⟨by rw [Token.opensDeclaration, hf.1, hopens]; rfl, htag⟩

namespace BaseForm

/-- The name of a type is read to its end if a declarator follows. -/
theorem specifiers_tokens (b : BaseForm) {body : Option Nat} {pos : Nat}
    (hbody : ∀ n ∈ body, pos + b.tokens.length ≤ n) {s : Specifiers} (hs : s.tag = none) {f : Focus}
    (hf : f.token.isIdentifier = true ∨ f.token.isPunct "*" = true) (rest : List Focus) :
    specifiers body pos false s (b.tokens ++ f :: rest) = ({ s with tag := b.tag? }, true, f :: rest) := by
  have hstop : f.token.kind ≠ .keyword := by
    intro hkind
    rcases hf with hf | hf
    · simp [Token.isIdentifier, hkind] at hf
    · simp [Token.isPunct, hkind] at hf
  cases b with
  | words first more isBase =>
    have hbase : baseTypes.contains first.token.text = true := by simpa using (isBase first List.mem_cons_self).2
    have hother (word : String) (hword : word ∉ baseTypes) :
        ((first :: more).any fun f ↦ f.token.text == word) = false :=
      any_text_eq_false (p := (· == word)) (fun f hf ↦ (isBase f hf).2) fun other hother ↦
        beq_false_of_ne (by rintro rfl; exact hword hother)
    rw [tokens, specifiers_words fun f hf ↦ isWord_of_mem (by decide) (isBase f hf), foldl_withKeyword,
      hother "typedef" (by decide), hother "static" (by decide), hother "extern" (by decide),
      hother "const" (by decide), List.any_cons, hbase, Bool.true_or, Bool.or_true, specifiers_stop hstop]
    simp [tag?, hs]
  | named name isIdentifier =>
    rw [tokens, List.singleton_append, specifiers_named isIdentifier hf, specifiers_stop hstop, tag?, ← hs]
  | tagged kind keyword tag isKeyword isIdentifier =>
    exact (specifiers_tagged isKeyword isIdentifier fun n hn ↦ hbody n hn).trans (specifiers_stop hstop)

theorem any_isKeyword (b : BaseForm) {word : String} (hword : word ∈ ["static", "extern", "const"]) :
    b.tokens.any (·.token.isKeyword word) = false := by
  have hidentifier {f : Focus} (hf : f.token.isIdentifier = true) : f.token.isKeyword word = false := by
    rw [Token.isKeyword, eq_of_beq hf]
    rfl
  have htext {f : Focus} (hf : f.token.text ≠ word) : f.token.isKeyword word = false := by
    simp [Token.isKeyword, hf]
  cases b with
  | words first more isBase =>
    have htable : ∀ base ∈ baseTypes, ∀ word ∈ ["static", "extern", "const"], base ≠ word := by decide
    exact List.any_eq_false.2 fun f hf ↦ Bool.eq_false_iff.1 (htext (htable _ (isBase f hf).2 word hword))
  | named name isIdentifier => simp [tokens, hidentifier isIdentifier]
  | tagged kind keyword tag isKeyword isIdentifier =>
    have htable : ∀ word ∈ ["static", "extern", "const"], kind.word ≠ word := by cases kind <;> decide
    have hkeyword : keyword.token.text = kind.word := eq_of_beq (Bool.and_eq_true_iff.1 isKeyword).2
    simp [tokens, hidentifier isIdentifier, htext (hkeyword ▸ htable word hword)]

end BaseForm

namespace SpecifierForm

theorem has_eq (s : SpecifierForm) {word : String} (hword : word ∈ ["static", "extern", "const"]) :
    s.has word = s.qualifiers.any (·.token.text == word) := by
  have hqualifiers : s.qualifiers.any (·.token.isKeyword word) = s.qualifiers.any (·.token.text == word) := by
    rw [Bool.eq_iff_iff, List.any_eq_true, List.any_eq_true]
    exact exists_congr fun f ↦ and_congr_right fun hf ↦ by simp [Token.isKeyword, (s.isQualifier f hf).1]
  rw [has, tokens, List.any_append, s.base.any_isKeyword hword, Bool.or_false, hqualifiers]

theorem specifiers_tokens (s : SpecifierForm) {body : Option Nat} (hbody : ∀ b ∈ body, s.tokens.length ≤ b)
    {f : Focus} (hf : f.token.isIdentifier = true ∨ f.token.isPunct "*" = true) (rest : List Focus) :
    Declaration.specifiers body 0 false noSpecifiers (s.tokens ++ f :: rest) = (s.specifiers, true, f :: rest) := by
  have hplain : (s.qualifiers.any fun f ↦ baseTypes.contains f.token.text) = false :=
    any_text_eq_false (fun f hf ↦ (s.isQualifier f hf).2) (by decide)
  have htypedef : (s.qualifiers.any fun f ↦ f.token.text == "typedef") = false :=
    any_text_eq_false (p := (· == "typedef")) (fun f hf ↦ (s.isQualifier f hf).2) (by decide)
  rw [tokens, List.append_assoc, specifiers_words fun f hf ↦ isWord_of_mem (by decide) (s.isQualifier f hf), hplain,
    foldl_withKeyword, htypedef]
  refine (s.base.specifiers_tokens (by simpa [tokens] using hbody) rfl hf rest).trans ?_
  rw [specifiers, s.has_eq (by decide), s.has_eq (by decide), s.has_eq (by decide)]
  rfl

end SpecifierForm

namespace Form

/-- Reading gives the specifiers and all declarators of a form. -/
theorem read_tokens (d : Form) {body : Option Nat} (hbody : ∀ b ∈ body, d.specifiers.tokens.length ≤ b) :
    read d.tokens body = (d.specifiers.specifiers, d.declarators) := by
  -- the token of look-ahead that tells the name of a type from that of a declarator
  have hstart : ∃ f rest, d.first.tokens ++ d.more.flatMap (fun m ↦ m.1 :: m.2.tokens) = f :: rest ∧
      (f.token.isIdentifier = true ∨ f.token.isPunct "*" = true) := by
    cases hstars : d.first.stars with
    | nil =>
      have hhead : d.first.head = d.first.name :: d.first.suffix.tokens := by
        rw [DeclaratorForm.head, hstars, List.nil_append]
      exact ⟨_, _, by rw [DeclaratorForm.tokens, hhead, List.cons_append, List.cons_append],
        .inl d.first.name_isIdentifier⟩
    | cons f stars =>
      have hhead : d.first.head = f :: (stars ++ d.first.name :: d.first.suffix.tokens) := by
        rw [DeclaratorForm.head, hstars, List.cons_append]
      exact ⟨_, _, by rw [DeclaratorForm.tokens, hhead, List.cons_append, List.cons_append],
        .inr (d.first.stars_isPunct f (by simp [hstars]))⟩
  obtain ⟨f, rest, hrest, hf⟩ := hstart
  have hspecifiers := d.specifiers.specifiers_tokens hbody hf rest
  rw [← hrest] at hspecifiers
  have hread : ((d.first :: d.more.map Prod.snd).map DeclaratorForm.tokens).filterMap declarator? =
      d.declarators := by
    have hone : declarator? ∘ DeclaratorForm.tokens = some ∘ DeclaratorForm.declarator :=
      funext DeclaratorForm.declarator?_tokens
    rw [List.filterMap_map, hone, List.filterMap_eq_map, declarators]
  rw [read, tokens, hspecifiers]
  simp only [if_true]
  rw [splitCommas_declarators d.first d.commas_isPunct, hread]

/-- `const struct P *a[2], f(p), c = {1, 2}`, with a body cut out behind the tag. -/
theorem read_tokens_body :
    ∃ d : Form, ∃ body, body = some 3 ∧ (∀ b ∈ body, d.specifiers.tokens.length ≤ b) ∧
      d.tokens.map (·.token.text) = ["const", "struct", "P", "*", "a", "[", "2", "]", ",", "f", "(", "p", ")", ",",
        "c", "=", "\x7b", "1", ",", "2", "\x7d"] ∧
      (d.specifiers.has "const" = true ∧ d.specifiers.has "static" = false) ∧
      d.declarators.map (fun d ↦ (d.name.text, d.pointerDepth, d.isFunction)) =
        [("a", 1, false), ("f", 0, true), ("c", 0, false)] ∧
      read d.tokens body = (d.specifiers.specifiers, d.declarators) := by
  let tok (kind : Token.Kind) (text : String) : Focus := ⟨0, [], ⟨kind, [], text, default⟩, []⟩
  let mark (text : String) : Focus := tok .punctuation text
  let word (text : String) : Focus := tok .identifier text
  let number (text : String) : Focus := tok .intLiteral text
  let braces : Group "\x7b" "\x7d" := ⟨mark "\x7b", [number "1", mark ",", number "2"], mark "\x7d", rfl, rfl, rfl⟩
  let value : Initializer := ⟨mark "=", braces.tokens, rfl, rfl, .group (c := '\x7d') braces rfl rfl rfl⟩
  let a : DeclaratorForm :=
    ⟨[mark "*"], word "a", .bounds [⟨mark "[", [number "2"], mark "]", rfl, rfl, rfl⟩], none, by decide, rfl⟩
  let f : DeclaratorForm :=
    ⟨[], word "f", .parameters ⟨mark "(", [word "p"], mark ")", rfl, rfl, rfl⟩ rfl, none, by decide, rfl⟩
  let c : DeclaratorForm := ⟨[], word "c", .bounds [], some value, by decide, rfl⟩
  let struct : BaseForm := .tagged .struct (tok .keyword "struct") (word "P") rfl rfl
  let d : Form := ⟨⟨[tok .keyword "const"], struct, by decide⟩, a, [(mark ",", f), (mark ",", c)], by decide⟩
  exact ⟨d, some 3, rfl, by decide, rfl, ⟨rfl, rfl⟩, rfl, d.read_tokens (by decide)⟩

end Form

end CodeStyle.Declaration
