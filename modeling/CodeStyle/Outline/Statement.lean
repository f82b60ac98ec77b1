import CodeStyle.Outline.Basic

/-!
How far one item of a region reaches. A region is the tokens of a file or of the inside of a block.
Each reader gets the first token of an item and the tokens after it in the region, and says how
many of those belong to the item; a brace group is always taken whole.
-/

namespace CodeStyle

/-- A brace group among the tokens after the first of an item. -/
structure BraceGroup where
  /-- The opening brace. -/
  opening : Focus
  /-- How many tokens after the first of the item go before the inside of the group. -/
  skip : Nat
  /-- The number of tokens inside the group. -/
  inside : Nat
  /-- Whether there is a closing brace. -/
  closed : Bool
  /-- Whether the inside is code of a function. -/
  inFunction : Bool
deriving Inhabited

/-- The number of tokens of the group, braces included. -/
def BraceGroup.size (g : BraceGroup) : Nat := if g.closed then g.inside + 2 else g.inside + 1

/-- The number of tokens before the brace that closes the innermost of `depth + 1` open groups. -/
def closeDistance (depth : Nat) : List Focus → Option Nat
  | [] => none
  | f :: rest =>
    if f.token.isPunct "\x7b" then (closeDistance (depth + 1) rest).map (· + 1)
    else if f.token.isPunct "\x7d" then
      match depth with
      | 0 => some 0
      | d + 1 => (closeDistance d rest).map (· + 1)
    else (closeDistance depth rest).map (· + 1)

/-- The group that `opening` opens before `rest`; without a closing brace it goes on to the end. -/
def BraceGroup.of (opening : Focus) (skip : Nat) (inFunction : Bool) (rest : List Focus) : BraceGroup :=
  match closeDistance 0 rest with
  | some n => ⟨opening, skip, n, true, inFunction⟩
  | none => ⟨opening, skip, rest.length, false, inFunction⟩

def BraceGroup.errors (g : BraceGroup) : List DelimiterError :=
  if g.closed then [] else [⟨.unclosedOpen '\x7b', g.opening.token.span⟩]

/-- An item before its blocks are read. -/
structure ItemDraft where
  kind : NodeKind
  /-- The number of its tokens after the first. -/
  more : Nat
  name : Option Nat
  /-- The groups that are blocks of the item. -/
  groups : List BraceGroup
  errors : List DelimiterError
deriving Inhabited

namespace ItemDraft

def plain (kind : NodeKind) (more : Nat) : ItemDraft := ⟨kind, more, none, [], []⟩

/-- The tokens from the next code token on. -/
def fromCode (rest : List Focus) : List Focus := rest.dropWhile (!·.isCode)

/-- What a statement without a telling keyword is, guessed from its first tokens. -/
def classify (first : Token) (rest : List Focus) : NodeKind :=
  if first.isKeyword "typedef" then .typeDefinition
  else if first.kind == .keyword then
    (if first.opensDeclaration then .declaration else .statement)
  else if !first.isIdentifier then .statement
  else
    match fromCode rest with
    | [] => .statement
    | next :: after =>
      if next.token.isIdentifier || next.token.kind == .keyword then .declaration
      else if !next.token.isPunct "*" then .statement
      else
        let isStar (f : Focus) := !f.isCode || f.token.isPunct "*" || f.token.isKeyword "const"
        match after.dropWhile isStar with
        | [] => .statement
        | name :: after =>
          if !name.token.isIdentifier then .statement
          else
            match fromCode after with
            | [] => .statement
            | f :: _ =>
              if [";", "=", ",", "[", "(", ")"].any f.token.isPunct then .declaration else .statement

/-- The tokens after the first of a `case` or `default` label: through the colon that no `?` pairs
with, or up to the next `;` or brace. -/
def caseReach (ternary taken last : Nat) : List Focus → Nat
  | [] => last
  | f :: rest =>
    let here := taken + 1
    if !f.isCode then caseReach ternary here last rest
    else if f.token.isPunct "?" then caseReach (ternary + 1) here here rest
    else if f.token.isPunct ":" then
      match ternary with
      | 0 => here
      | n + 1 => caseReach n here here rest
    else if f.token.isPunct ";" || f.token.isPunct "\x7b" || f.token.isPunct "\x7d" then last
    else caseReach ternary here here rest

/-- The tokens after the first comment of a block: comments with at most one line break between
them go together. -/
def commentReach (lineBreak : Bool) (taken last : Nat) : List Focus → Nat
  | [] => last
  | f :: rest =>
    let here := taken + 1
    if f.token.kind == .whitespace then commentReach lineBreak here last rest
    else if f.token.kind == .newline then
      (if lineBreak then last else commentReach true here last rest)
    else if f.token.isComment then commentReach false here here rest
    else last

/-- `struct`, `union` and `enum`. -/
def isTagKeyword (t : Token) : Bool :=
  t.isKeyword "struct" || t.isKeyword "union" || t.isKeyword "enum"

/-- Whether a brace opens the body of a `struct`, `union` or `enum` of the item that starts at the
token `start`. -/
def opensAggregate (start : Nat) (brace : Focus) : Bool :=
  match (brace.before.take (brace.index - start)).filter Token.isCode with
  | [] => false
  | t :: earlier => isTagKeyword t || (t.isIdentifier && earlier.head?.any isTagKeyword)

/-- What the reader of a statement has seen so far. -/
structure Progress where
  /-- The open parentheses and brackets, innermost first: the delimiter each needs and its span. -/
  opens : List (Char × Span)
  /-- The number of tokens after the first through the last code token. -/
  last : Nat
  previous : Option Focus
  sawCall : Bool
  callName : Option Nat
  sawAssign : Bool
  /-- The last token of the last body of a `struct`, `union` or `enum`. -/
  aggregateEnd : Option Nat
  groups : List BraceGroup
  errors : List DelimiterError
deriving Inhabited

namespace Progress

def start : Progress := ⟨[], 0, none, false, none, false, none, [], []⟩

/-- An unclosed parenthesis or bracket. -/
def unclosed (o : Char × Span) : DelimiterError :=
  ⟨.unclosedOpen (if o.1 == ')' then '(' else '['), o.2⟩

/-- Gives up all open parentheses and brackets. -/
def closeAll (p : Progress) : Progress :=
  { p with opens := [], errors := p.errors ++ p.opens.reverse.map unclosed }

def openParen (p : Progress) (f : Focus) : Progress :=
  let p :=
    if p.opens.isEmpty && !p.sawCall then
      { p with
        sawCall := true
        callName := (p.previous.filter (·.token.isIdentifier)).map (·.index) }
    else p
  { p with opens := (')', f.token.span) :: p.opens }

def openBracket (p : Progress) (f : Focus) : Progress :=
  { p with opens := (']', f.token.span) :: p.opens }

def close (p : Progress) (found : Char) (f : Focus) : Progress :=
  match p.opens with
  | [] => { p with errors := p.errors ++ [⟨.unmatchedClose found, f.token.span⟩] }
  | (expected, _) :: outer =>
    if expected == found then { p with opens := outer }
    else
      { p with
        opens := outer
        errors := p.errors ++ [⟨.mismatchedClose expected found, f.token.span⟩] }

/-- Moves on past the code token `f`, the `offset`-th after the first. -/
def pass (p : Progress) (offset : Nat) (f : Focus) : Progress :=
  { p with last := offset, previous := some f }

/-- Moves on past a brace group at `offset`. -/
def passGroup (p : Progress) (offset : Nat) (g : BraceGroup) (rest : List Focus) : Progress :=
  { p with
    last := offset + g.size - 1
    previous := rest[g.size - 2]?.or (some g.opening) }

def addGroup (p : Progress) (g : BraceGroup) : Progress := { p with groups := p.groups ++ [g] }

end Progress

/-- How a statement is read. -/
structure Mode where
  kind : NodeKind
  /-- The keyword of a control statement, empty for others. -/
  lead : String
  isControl : Bool
  inFunction : Bool
  start : Nat
deriving Inhabited

/-- The draft of a statement that ends after `more` tokens. -/
def Progress.finish (p : Progress) (kind : NodeKind) (name : Option Nat) (more : Nat) : ItemDraft :=
  ⟨kind, more, name, p.groups, p.errors⟩

/-- Reads a statement from its `offset`-th token on. It ends at a `;` outside parentheses, at the
end of its block, or before a closing brace, a directive or the end of the region. -/
def scan (m : Mode) (offset : Nat) (p : Progress) : List Focus → ItemDraft
  | [] => p.closeAll.finish m.kind none p.last
  | f :: rest =>
    let t := f.token
    if !t.isCode then
      if t.kind == .directive && p.opens.isEmpty then p.finish m.kind none p.last
      else scan m (offset + 1) p rest
    else if t.isPunct "(" then scan m (offset + 1) ((p.openParen f).pass offset f) rest
    else if t.isPunct "[" then scan m (offset + 1) ((p.openBracket f).pass offset f) rest
    else if t.isPunct ")" then scan m (offset + 1) ((p.close ')' f).pass offset f) rest
    else if t.isPunct "]" then scan m (offset + 1) ((p.close ']' f).pass offset f) rest
    else if t.isPunct "=" && p.opens.isEmpty then
      scan m (offset + 1) ({ p with sawAssign := true }.pass offset f) rest
    else if t.isPunct ";" && p.opens.isEmpty then
      let endsBody := p.aggregateEnd.isSome && p.aggregateEnd == p.previous.map (·.index)
      p.finish (if m.kind == .declaration && endsBody then .typeDefinition else m.kind) none offset
    else if t.isPunct "\x7b" then
      let p := p.closeAll
      let g := BraceGroup.of f offset m.inFunction rest
      if p.sawAssign then
        scan m (offset + g.size)
          ({ p with errors := p.errors ++ g.errors }.passGroup offset g rest) (rest.drop (g.size - 1))
      else if m.isControl then
        let p := (p.addGroup g).passGroup offset g rest
        if m.lead == "do" then scan m (offset + g.size) p (rest.drop (g.size - 1))
        else p.finish m.kind none p.last
      else if opensAggregate m.start f then
        let p := (p.addGroup { g with inFunction := false }).passGroup offset g rest
        scan m (offset + g.size) { p with aggregateEnd := p.previous.map (·.index) }
          (rest.drop (g.size - 1))
      else if p.sawCall && !m.inFunction then
        let p := (p.addGroup { g with inFunction := true }).passGroup offset g rest
        p.finish .functionDefinition p.callName p.last
      else
        let p := (p.addGroup g).passGroup offset g rest
        p.finish m.kind none p.last
    else if t.isPunct "\x7d" then p.closeAll.finish m.kind none p.last
    else scan m (offset + 1) (p.pass offset f) rest
termination_by region => region.length

/-- The item that starts with the code token `first`. -/
def statement (inFunction : Bool) (first : Focus) (rest : List Focus) : ItemDraft :=
  let t := first.token
  let colon := rest.findIdx? Focus.isCode
  let isLabel :=
    inFunction && t.isIdentifier && (rest.find? Focus.isCode).any (·.token.isPunct ":")
  match isLabel, colon with
  | true, some k => ⟨.label, k + 1, some first.index, [], []⟩
  | _, _ =>
    let lead := if t.kind == .keyword then t.text else ""
    if lead == "case" || lead == "default" then plain .statement (caseReach 0 0 0 rest)
    else
      let isControl := Token.controlKeywords.contains lead
      let kind := if isControl then .statement else classify t rest
      scan ⟨kind, lead, isControl, inFunction, first.index⟩ 0 Progress.start (first :: rest)

/-- The item that starts with a comment, a directive or a code token that is no brace. -/
def of (inFunction : Bool) (first : Focus) (rest : List Focus) : ItemDraft :=
  if first.token.isComment then
    plain .commentBlock (if first.startsLine then commentReach false 0 0 rest else 0)
  else if first.token.kind == .directive then
    plain (if directiveName first.token.text == "define" then .macroDefinition else .directive) 0
  else statement inFunction first rest

end ItemDraft

end CodeStyle
