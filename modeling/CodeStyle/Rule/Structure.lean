import CodeStyle.Rule.Basic

/-!
Rules on the outline of a file: delimiters, control statements, nesting and length.
-/

namespace CodeStyle.Rule.Structure

def unbalanced (r : RuleInput) : Outcome :=
  .found (r.file.delimiterErrors.map fun e ↦ ⟨e.span, e.imbalance.message, none⟩)

/-- The statements that start with a control keyword. -/
def controlStatements (a : Analysis) : List Visit := a.visits.filter (·.tree.isControl a.foci)

/-- What `check` says of the token with which a control statement starts. -/
def withLead (foci : Array Focus) (t : Tree) (check : Focus → Outcome) : Outcome :=
  match t.firstCode foci with
  | some f => check f
  | none => .failed "control statement without tokens"

def leads (foci : Array Focus) (word : String) (t : Tree) : Bool := t.leadKeyword foci == some word

/-- Whether a statement starts with `else if`. -/
def isElseIf (foci : Array Focus) (t : Tree) : Bool :=
  leads foci "else" t
    && ((t.firstCode foci).bind Focus.nextCode).any (·.isKeyword "if")

def bracesRequired (r : RuleInput) : Outcome :=
  let foci := r.file.foci
  .each ((controlStatements r.file).filter (·.tree.block.isNone)) fun v ↦
    withLead foci v.tree fun lead ↦
      let word := if isElseIf foci v.tree then "else if" else lead.token.text
      .found [⟨lead.token.span, s!"body of '{word}' must be enclosed in braces", none⟩]

mutual

/-- Whether a `default` stands under a node, outside any `switch` below it. -/
def hasDefault (foci : Array Focus) : Tree → Bool
  | .node _ _ children => hasDefaultAmong foci children

def hasDefaultAmong (foci : Array Focus) : List Tree → Bool
  | [] => false
  | t :: rest =>
    (if leads foci "default" t && t.kind == .statement then true
      else if leads foci "switch" t then false
      else hasDefault foci t)
      || hasDefaultAmong foci rest

end

def switchDefault (r : RuleInput) : Outcome :=
  let foci := r.file.foci
  .each ((controlStatements r.file).filter (leads foci "switch" ·.tree)) fun v ↦
    withLead foci v.tree fun lead ↦
      if v.tree.block.any (hasDefault foci) then .clean
      else .found [⟨lead.token.span, "switch has no default label", none⟩]

/-- The rest of a chain that starts with an `if`: its last `else if` unless a plain `else` ends it, and
the siblings after it. -/
def chainRest (foci : Array Focus) (last : Option Tree) : List Tree → Option Tree × List Tree
  | [] => (last, [])
  | t :: rest =>
    if t.kind == .commentBlock then chainRest foci last rest
    else if !leads foci "else" t then (last, t :: rest)
    else if isElseIf foci t then chainRest foci (some t) rest
    else (none, rest)

theorem chainRest_length (foci : Array Focus) (last : Option Tree) (ts : List Tree) :
    (chainRest foci last ts).2.length ≤ ts.length := by
  induction ts generalizing last with
  | nil => simp [chainRest]
  | cons t rest ih =>
    unfold chainRest
    split
    · exact Nat.le_succ_of_le (ih last)
    · split
      · exact Nat.le_refl _
      · split
        · exact Nat.le_succ_of_le (ih (some t))
        · exact Nat.le_succ _

/-- The last `else if` of each chain among siblings that no plain `else` ends. -/
def openChains (foci : Array Focus) : List Tree → List Tree
  | [] => []
  | t :: rest =>
    if leads foci "if" t then
      (chainRest foci none rest).1.toList ++ openChains foci (chainRest foci none rest).2
    else openChains foci rest
termination_by ts => ts.length
decreasing_by
  · exact Nat.lt_succ_of_le (chainRest_length foci none rest)
  · simp

def elseIfTermination (r : RuleInput) : Outcome :=
  let foci := r.file.foci
  .each (r.file.preorder.flatMap fun t ↦ openChains foci t.children) fun t ↦
    withLead foci t fun lead ↦
      .found [⟨lead.token.span, "if ... else if chain must end with an else", none⟩]

/-- How many control statements a statement lies in, itself included. -/
def controlDepth (foci : Array Focus) (v : Visit) : Nat := 1 + v.above.countP (·.isControl foci)

def nestingDepth (r : RuleInput) : Outcome :=
  let foci := r.file.foci
  let limit := r.limits.nestingDepth
  let deep (v : Visit) := controlDepth foci v == limit + 1
  .each ((r.untilCancelled (controlStatements r.file)).filter deep) fun v ↦
    withLead foci v.tree fun lead ↦
      .found [⟨lead.token.span,
        s!"control statement nested {limit + 1} deep, limit is {limit}", none⟩]

/-- The `?`s inside one pair of brackets: how many were open when it opened, and how many are now. -/
structure TernaryLevel where
  outer : Nat
  current : Nat
deriving Repr, DecidableEq, Inhabited

/-- The levels of brackets that are open, the innermost apart from the others. -/
structure TernaryLevels where
  inner : TernaryLevel
  outer : List TernaryLevel
deriving Repr, DecidableEq, Inhabited

namespace TernaryLevels

def start : TernaryLevels := ⟨⟨0, 0⟩, []⟩

def openBracket (l : TernaryLevels) : TernaryLevels :=
  ⟨⟨l.inner.current, l.inner.current⟩, l.inner :: l.outer⟩

def closeBracket (l : TernaryLevels) : TernaryLevels :=
  match l.outer with
  | [] => l
  | o :: rest => ⟨o, rest⟩

/-- A comma ends the conditional expressions of its level. -/
def comma (l : TernaryLevels) : TernaryLevels := { l with inner.current := l.inner.outer }

def question (l : TernaryLevels) : TernaryLevels := { l with inner.current := l.inner.current + 1 }

/-- The levels after a token. -/
def next (l : TernaryLevels) (t : Token) : TernaryLevels :=
  if t.kind == .directive then start
  else if !t.isCode then l
  else if t.text == "(" || t.text == "[" then l.openBracket
  else if t.text == ")" || t.text == "]" then l.closeBracket
  else if t.text == "," then l.comma
  else if t.text == ";" || t.text == "\x7b" || t.text == "\x7d" then start
  else if t.text == "?" then l.question
  else l

end TernaryLevels

/-- The conditional operators among `tokens` at depth `limit + 1`. -/
def deepTernaries (limit : Nat) (levels : TernaryLevels) : List Token → List Token
  | [] => []
  | t :: rest =>
    let next := levels.next t
    if t.isCode && t.text == "?" && next.inner.current == limit + 1 then
      t :: deepTernaries limit next rest
    else deepTernaries limit next rest

def ternaryNesting (r : RuleInput) : Outcome :=
  let limit := r.limits.ternaryDepth
  .found ((deepTernaries limit .start r.tokens).map fun t ↦
    ⟨t.span, s!"conditional operator nested {limit + 1} deep, limit is {limit}", none⟩)

def functionLength (r : RuleInput) : Outcome :=
  let limit := r.limits.functionLines
  .each r.facts.functions fun f ↦
    match f.body.filter fun b ↦ b.start < b.stop with
    | none => .clean
    | some body =>
      r.withToken body.start fun opener ↦ r.withToken (body.stop - 1) fun close ↦
        let lines := close.token.span.endLine - (opener.token.line + 1)
        if limit < lines then
          .found [⟨f.name.span,
            s!"function '{f.name.text}' body is {lines} lines long, limit is {limit}", none⟩]
        else .clean

def fileLength (r : RuleInput) : Outcome :=
  let limit := r.limits.fileLines
  let count := r.source.lineCount
  if limit < count then
    .found ((r.source.lineSpan? (limit + 1)).toList.map fun span ↦
      ⟨span, s!"file is {count} lines long, limit is {limit}", none⟩)
  else .clean

/-- Nodes of which a line should hold one. -/
def isItem (t : Tree) : Bool :=
  t.kind == .statement || t.kind == .declaration || t.kind == .typeDefinition
    || t.kind == .functionDefinition || t.kind == .label

/-- Labels and the like, behind which a statement may stand. -/
def isLabelLike (foci : Array Focus) (t : Tree) : Bool :=
  t.kind == .label || leads foci "case" t || leads foci "default" t

/-- The first tokens of the items that start on the line on which the item before them ends. -/
def crowded (foci : Array Focus) (previous : Option (Tree × Nat)) : List Tree → List Token
  | [] => []
  | t :: rest =>
    if isItem t then
      match t.firstCode foci, t.lastCode foci with
      | some first, some last =>
        let same := previous.any fun (p, line) ↦
          first.token.line == line && !isLabelLike foci p && !leads foci "else" t
        (if same then [first.token] else []) ++ crowded foci (some (t, last.token.line)) rest
      | _, _ => crowded foci previous rest
    else if t.kind == .commentBlock then crowded foci previous rest
    else crowded foci none rest

def oneStatementPerLine (r : RuleInput) : Outcome :=
  .found ((r.file.preorder.flatMap fun t ↦ crowded r.file.foci none t.children).map fun t ↦
    ⟨t.span, "more than one statement on this line", none⟩)

def rules : List Rule :=
  [ { id := "STRUCTURE.UNBALANCED", category := .structural, severity := .error
      summary := "Braces, parentheses and brackets are balanced"
      check := some unbalanced },
    { id := "STRUCTURE.BRACES_REQUIRED", category := .structural, severity := .warning
      summary := "Bodies of if, else, for, while, do and switch are enclosed in braces"
      check := some bracesRequired },
    { id := "STRUCTURE.SWITCH_DEFAULT", category := .structural, severity := .warning
      summary := "Every switch has a default label"
      check := some switchDefault },
    { id := "STRUCTURE.ELSE_IF_TERMINATION", category := .structural, severity := .warning
      summary := "An if ... else if chain ends with a plain else"
      check := some elseIfTermination },
    { id := "STRUCTURE.NESTING_DEPTH", category := .structural, severity := .warning
      summary := "Control statements are not nested too deeply"
      check := some nestingDepth },
    { id := "STRUCTURE.TERNARY_NESTING", category := .structural, severity := .warning
      summary := "Conditional operators are not nested"
      check := some ternaryNesting },
    { id := "STRUCTURE.FUNCTION_LENGTH", category := .structural, severity := .warning
      summary := "Function bodies stay within the line limit"
      check := some functionLength },
    { id := "STRUCTURE.FILE_LENGTH", category := .structural, severity := .info
      summary := "Files stay within the line limit"
      check := some fileLength },
    { id := "STRUCTURE.ONE_STATEMENT_PER_LINE", category := .structural, severity := .warning
      summary := "At most one statement or declaration per line"
      check := some oneStatementPerLine } ]

end CodeStyle.Rule.Structure
