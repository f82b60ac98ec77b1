import CodeStyle.Rule.Basic
import CodeStyle.Text.Affix

/-!
Rules on the blanks around operators, punctuation and keywords. A line break beside a token always
satisfies them; only blanks on the same line count.
-/

namespace CodeStyle.Rule.Spacing

/-- What separates a token from its neighbour. -/
inductive Gap where
  | none
  | space
  | lineBreak
deriving Repr, DecidableEq, Inhabited

def gapBefore (f : Focus) : Gap :=
  match f.before with
  | [] => .lineBreak
  | t :: rest =>
    match t.kind with
    | .newline | .directive => .lineBreak
    | .whitespace => if rest.head?.all (·.kind == .newline) then .lineBreak else .space
    | .lineComment | .blockComment => .space
    | _ => .none

def gapAfter (f : Focus) : Gap :=
  match f.after with
  | [] => .lineBreak
  | t :: rest =>
    match t.kind with
    | .newline => .lineBreak
    | .whitespace => if rest.head?.all (·.kind == .newline) then .lineBreak else .space
    | .lineComment | .blockComment => .space
    | _ => .none

/-- Operators that are spaced alike. -/
inductive OperatorClass where
  | binary
  /-- `+` or `-`: binary after an operand, and unary otherwise. -/
  | additive
  /-- The `:` of a conditional expression. -/
  | colon
  | comma
  | member
  | unary
  | increment
  | semicolon
deriving Repr, DecidableEq, Inhabited

def binaryOperators : List String :=
  ["=", "+=", "-=", "*=", "/=", "%=", "&=", "|=", "^=", "<<=", ">>=", "==", "!=", "<", ">", "<=",
    ">=", "&&", "||", "/", "%", "<<", ">>", "|", "^", "?"]

def OperatorClass.of? (text : String) : Option OperatorClass :=
  if binaryOperators.contains text then some .binary
  else if ["+", "-"].contains text then some .additive
  else if text == ":" then some .colon
  else if text == "," then some .comma
  else if [".", "->"].contains text then some .member
  else if ["!", "~"].contains text then some .unary
  else if ["++", "--"].contains text then some .increment
  else if text == ";" then some .semicolon
  else none

/-- What is wanted on one side of a token. -/
inductive Need where
  | space
  | noSpace
  | any
deriving Repr, DecidableEq, Inhabited

def Need.violatedBy : Need → Gap → Bool
  | .space, .none => true
  | .noSpace, .space => true
  | _, _ => false

/-- The rule that looks after an operator. -/
inductive Owner where
  | operator
  | comma
  | member
  | unary
  | semicolon
deriving Repr, DecidableEq, Inhabited

structure Requirement where
  owner : Owner
  before : Need
  after : Need
deriving Repr, DecidableEq, Inhabited

/-- Whether a token may stand in the name of a type. -/
def isTypeLike (t : Token) : Bool := t.opensDeclaration || t.isIdentifier || t.isPunct "*"

/-- Whether a token starts the name of a type for certain. -/
def startsType (t : Token) : Bool :=
  t.opensDeclaration || (t.isIdentifier && Text.endsWith t.text "_t")

/-- Whether the tokens before a `)`, nearest first, make it end a cast such as `(char *)`; `first` is
the earliest token of the type so far. -/
def closesCast (first : Option Token) : List Token → Bool
  | [] => false
  | t :: before =>
    if !t.isCode then closesCast first before
    else if t.isPunct "(" then
      let afterCall := (before.find? Token.isCode).any fun b ↦ b.isIdentifier || b.isKeyword "sizeof"
      first.any startsType && !afterCall
    else isTypeLike t && closesCast (some t) before

/-- Whether an operand ends before a token that comes after `before`. -/
def operandBefore (before : List Token) : Bool :=
  match before.dropWhile (!·.isCode) with
  | [] => false
  | t :: rest =>
    t.isIdentifier || t.kind.isLiteral || t.isPunct "]" || (t.isPunct ")" && !closesCast none rest)

/-- What is wanted around an operator inside `parens` open parentheses. -/
def requirement (f : Focus) (parens : Nat) : OperatorClass → Requirement
  | .binary | .colon => ⟨.operator, .space, .space⟩
  | .additive =>
    if operandBefore f.before then ⟨.operator, .space, .space⟩ else ⟨.unary, .any, .noSpace⟩
  | .unary => ⟨.unary, .any, .noSpace⟩
  | .increment =>
    let follows := operandBefore f.before && gapBefore f == .none
    let operandAfter :=
      f.nextCode.any fun t ↦ t.isIdentifier || t.isPunct "(" || t.isPunct "*"
    if !follows && operandAfter then ⟨.unary, .any, .noSpace⟩ else ⟨.unary, .noSpace, .any⟩
  | .comma => ⟨.comma, .noSpace, .space⟩
  | .member =>
    let designates :=
      f.previousCode.all fun t ↦ t.isPunct "\x7b" || t.isPunct "," || t.isPunct "("
    ⟨.member, if designates then .any else .noSpace, .noSpace⟩
  | .semicolon =>
    let emptyBefore := f.previousCode.all fun t ↦ t.isPunct "(" || t.isPunct ";"
    let tightAfter := f.nextCode.all fun t ↦ t.isPunct ")" || t.isPunct ";"
    ⟨.semicolon, if emptyBefore then .any else .noSpace,
      if 0 < parens && !tightAfter then .space else .any⟩

/-- What is wrong on one side. -/
def describeSide (text side : String) : Need → String
  | .space => s!"missing space {side} '{text}'"
  | _ => s!"unexpected space {side} '{text}'"

/-- What is wrong around an operator, if anything is. -/
def describe? (text : String) (q : Requirement) (before after : Gap) : Option String :=
  match q.before.violatedBy before, q.after.violatedBy after with
  | true, true =>
    some <|
      if q.before == q.after then
        if q.before == .space then s!"'{text}' needs a space on each side"
        else s!"'{text}' must not be surrounded by spaces"
      else describeSide text "before" q.before ++ "; " ++ describeSide text "after" q.after
  | true, false => some (describeSide text "before" q.before)
  | false, true => some (describeSide text "after" q.after)
  | false, false => none

/-- The conditional operators that wait for their colon, and the open parentheses. -/
structure Depth where
  ternaries : Nat
  parens : Nat
deriving Repr, DecidableEq, Inhabited

namespace Depth

/-- The depth at an operator, once its own parenthesis or brace counts. -/
def enter (d : Depth) (text : String) : Depth :=
  if text == "(" then { d with parens := d.parens + 1 }
  else if text == ")" then { d with parens := d.parens - 1 }
  else if text == "\x7b" || text == "\x7d" then ⟨0, 0⟩
  else d

/-- The depth after an operator of a class. -/
def leave (d : Depth) (text : String) : OperatorClass → Depth
  | .binary => if text == "?" then { d with ternaries := d.ternaries + 1 } else d
  | .colon => { d with ternaries := d.ternaries - 1 }
  | .semicolon => if d.parens == 0 then { d with ternaries := 0 } else d
  | _ => d

end Depth

def findingAt (owner : Owner) (f : Focus) (parens : Nat) (kind : OperatorClass) : Option Finding :=
  let q := requirement f parens kind
  if q.owner != owner then none
  else
    (describe? f.token.text q (gapBefore f) (gapAfter f)).map fun message ↦ ⟨f.token.span, message, none⟩

/-- What one rule finds at the operators among `foci`. A colon outside a conditional expression
belongs to a label or a bit-field and is left alone. -/
def findings (owner : Owner) (d : Depth) : List Focus → List Finding
  | [] => []
  | f :: rest =>
    if f.token.kind != .operator && f.token.kind != .punctuation then findings owner d rest
    else
      let d := d.enter f.token.text
      match OperatorClass.of? f.token.text with
      | none => findings owner d rest
      | some kind =>
        if kind == .colon && d.ternaries == 0 then findings owner d rest
        else
          (findingAt owner f d.parens kind).toList ++ findings owner (d.leave f.token.text kind) rest

def check (owner : Owner) (r : RuleInput) : Outcome := .found (findings owner ⟨0, 0⟩ r.foci)

/-- Whether two blanks stand side by side. -/
def hasDoubleSpace : List UInt8 → Bool
  | a :: b :: rest => (a == Text.byte ' ' && b == Text.byte ' ') || hasDoubleSpace (b :: rest)
  | _ => false

def multipleSpacesAt (f : Focus) : Option Finding :=
  let t := f.token
  let leading := f.before.head?.all (·.kind == .newline)
  let closing := f.after.head?.all fun n ↦ n.kind == .newline || n.isComment
  if t.kind == .whitespace && hasDoubleSpace t.bytes && !leading && !closing then
    some ⟨t.span, s!"{t.bytes.length} spaces where one is expected", some " "⟩
  else none

def multipleSpaces (r : RuleInput) : Outcome := .found (r.foci.filterMap multipleSpacesAt)

/-- The name right before the blank in front of a `(`, unless a pointer is declared there. -/
def spacedCallee (f : Focus) : Option Token :=
  let pointer := f.nextCode.any (·.isPunct "*")
  match f.before with
  | _ :: t :: _ => if t.isIdentifier && gapBefore f == .space && !pointer then some t else none
  | _ => none

def parenProblems (f : Focus) : List String :=
  let t := f.token
  if t.isPunct "(" || t.isPunct "[" then
    (if gapAfter f == .space then [s!"space after '{t.text}'"] else [])
      ++ (if t.isPunct "(" then
          (spacedCallee f).toList.map fun callee ↦ s!"space between '{callee.text}' and '('"
        else [])
  else if (t.isPunct ")" || t.isPunct "]") && gapBefore f == .space then [s!"space before '{t.text}'"]
  else []

def parenSpacing (r : RuleInput) : Outcome :=
  .found (r.foci.filterMap fun f ↦
    let problems := parenProblems f
    if problems.isEmpty then none else some ⟨f.token.span, "; ".intercalate problems, none⟩)

def keywordSpacing (r : RuleInput) : Outcome :=
  .found (r.foci.filterMap fun f ↦
    let t := f.token
    if t.kind == .keyword && ["if", "while", "for", "switch", "return"].contains t.text
        && f.after.head?.any (·.isPunct "(") then
      some ⟨t.span, s!"missing space between '{t.text}' and '('", some (t.text ++ " (")⟩
    else none)

end CodeStyle.Rule.Spacing
