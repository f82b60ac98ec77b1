import CodeStyle.Rule.Basic
import CodeStyle.Text.Affix

/-!
Rules on keywords that are not used, and on `goto`s and labels.
-/

namespace CodeStyle.Rule.Keywords

def forbid (word : String) (r : RuleInput) : Outcome :=
  .found ((r.tokens.filter (·.isKeyword word)).map fun t ↦
    ⟨t.span, s!"'{word}' must not be used", some ""⟩)

/-- The first label of a function with the name that a `goto` gives. -/
def targetOf (f : FunctionFact) (g : GotoFact) : Option Name :=
  f.labels.find? (·.text == g.target.text)

def backwardGoto (f : FunctionFact) (g : GotoFact) : Option Finding :=
  ((targetOf f g).filter (·.token < g.keyword.token)).map fun label ↦
    ⟨g.keyword.span,
      s!"goto jumps backward to '{g.target.text}' on line {label.span.startLine}", none⟩

def gotoBackward (r : RuleInput) : Outcome :=
  .found (r.facts.functions.flatMap fun f ↦ f.gotos.filterMap (backwardGoto f))

/-- The nodes of the body of a function. -/
def bodyVisits (f : FunctionFact) (body : Tree) : List Visit :=
  body.visits (f.node.tree :: f.node.above)

/-- The first of the nodes with the fewest tokens. -/
def smallest (best : Visit) : List Visit → Visit
  | [] => best
  | v :: rest => smallest (if v.tree.size < best.tree.size then v else best) rest

/-- The smallest block among the nodes of a body that holds a token. -/
def innermostBlock (visits : List Visit) (token : Nat) : Option Visit :=
  let holds (v : Visit) := v.tree.kind == .braceBlock && v.tree.start ≤ token && token < v.tree.stop
  match visits.filter holds with
  | [] => none
  | v :: rest => some (smallest v rest)

/-- Whether a `goto` that lies in `block` may jump to a label whose block is `scope`. -/
def reaches (scope : Tree) (block : Visit) : Bool :=
  block.tree.id == scope.id || block.above.any (·.id == scope.id)

def gotoScopeAt (f : FunctionFact) (body : Tree) (g : GotoFact) : Outcome :=
  let visits := bodyVisits f body
  let span := g.target.span
  match targetOf f g with
  | none =>
    .found [⟨span, s!"goto target '{g.target.text}' is not a label in '{f.name.text}'", none⟩]
  | some label =>
    match visits.find? fun v ↦ v.tree.kind == .label && v.tree.head.name == some label.token with
    | none => .failed "label fact without a label node" span
    | some node =>
      match node.enclosing .braceBlock with
      | none => .clean
      | some scope =>
        let block := (innermostBlock visits g.keyword.token).getD ⟨body, f.node.tree :: f.node.above⟩
        if reaches scope block then .clean
        else .found [⟨span, s!"goto jumps into a nested block to reach '{g.target.text}'", none⟩]

def gotoScope (r : RuleInput) : Outcome :=
  .each r.facts.functions fun f ↦
    match f.body with
    | none => .clean
    | some body => .each f.gotos (gotoScopeAt f body)

def labelNameAt (f : FunctionFact) (label : Name) : Option Finding :=
  let start := f.name.text ++ "_"
  if label.text == f.name.text || Text.startsWith label.text start then none
  else
    some ⟨label.span, s!"label '{label.text}' must start with '{start}'", some (start ++ label.text)⟩

def labelName (r : RuleInput) : Outcome :=
  .found (r.facts.functions.flatMap fun f ↦ f.labels.filterMap (labelNameAt f))

def rules : List Rule :=
  [ { id := "KEYWORDS.NO_AUTO", category := .keywords, severity := .warning
      summary := "The auto storage class is not used"
      check := some (forbid "auto") },
    { id := "KEYWORDS.NO_REGISTER", category := .keywords, severity := .warning
      summary := "The register storage class is not used"
      check := some (forbid "register") },
    { id := "KEYWORDS.GOTO_BACKWARD", category := .keywords, severity := .error
      summary := "goto only jumps forward"
      check := some gotoBackward },
    { id := "KEYWORDS.GOTO_SCOPE", category := .keywords, severity := .error
      summary := "goto targets a label in the same or an enclosing block of the same function"
      check := some gotoScope },
    { id := "KEYWORDS.LABEL_NAME", category := .keywords, severity := .warning
      summary := "Labels are prefixed with the name of their function"
      check := some labelName } ]

end CodeStyle.Rule.Keywords
