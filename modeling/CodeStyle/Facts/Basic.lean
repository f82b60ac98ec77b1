import CodeStyle.Facts.Declaration
import CodeStyle.Outline.Tree
import CodeStyle.Source.Basic
import CodeStyle.Text.Blank

/-!
Facts about a file that its rules share: lines, functions, variables, types, macros, enumeration
constants and the sections of the file.
-/

namespace CodeStyle

inductive VariableScope where
  | file
  | function
  | parameter
  | member
deriving Repr, DecidableEq, Inhabited

def VariableScope.word : VariableScope → String
  | file => "global"
  | function => "local"
  | parameter => "parameter"
  | member => "member"

/-- The parts of a file in the order in which they have to come. -/
inductive Section where
  | includes
  | macros
  | types
  | globals
  | functions
deriving Repr, DecidableEq, Inhabited

namespace Section

def title : Section → String
  | includes => "includes"
  | macros => "macros"
  | types => "type definitions"
  | globals => "global declarations"
  | functions => "function definitions"

def rank : Section → Nat
  | includes => 0
  | macros => 1
  | types => 2
  | globals => 3
  | functions => 4

end Section

structure LineFact where
  number : Nat
  hasCode : Bool
  hasComment : Bool
deriving Repr, DecidableEq, Inhabited

def LineFact.isBlank (l : LineFact) : Bool := !l.hasCode && !l.hasComment

structure GotoFact where
  /-- The `goto` keyword. -/
  keyword : Name
  target : Name
deriving Repr, DecidableEq, Inhabited

structure FunctionFact where
  node : Visit
  name : Name
  body : Option Tree
  labels : List Name
  gotos : List GotoFact
deriving Inhabited

structure VariableFact where
  name : Name
  pointerDepth : Nat
  scope : VariableScope
  isStatic : Bool
  isExtern : Bool
  isConst : Bool
deriving Repr, DecidableEq, Inhabited

structure TypeFact where
  node : Tree
  tagKind : Option TagKind
  tag : Option Name
  hasBody : Bool
  /-- The name that a `typedef` gives. -/
  typeName : Option Name
deriving Inhabited

structure MacroFact where
  node : Nat
  name : String
  span : Span
  isFunctionLike : Bool
deriving Repr, DecidableEq, Inhabited

structure SectionFact where
  part : Section
  node : Tree
deriving Inhabited

structure Facts where
  lines : List LineFact
  functions : List FunctionFact
  /-- Variables and parameters. -/
  objects : List VariableFact
  /-- Functions declared without a body. -/
  prototypes : List Name
  types : List TypeFact
  macros : List MacroFact
  enumConstants : List Name
  sections : List SectionFact
deriving Inhabited

namespace Facts

def empty : Facts := ⟨[], [], [], [], [], [], [], []⟩

/-- The last line on which a span has a byte. -/
def lastLine (s : Span) : Nat :=
  if s.endCol == 1 && s.startLine < s.endLine then s.endLine - 1 else s.endLine

/-- For each line whether it holds code and whether it holds a comment. -/
def lineTable (count : Nat) (tokens : List Token) : List LineFact :=
  let visible := tokens.filter (!·.isTrivia)
  (List.range' 1 count).map fun number ↦
    let here := visible.filter fun t ↦ t.span.startLine ≤ number && number ≤ lastLine t.span
    ⟨number, here.any (!·.isComment), here.any (·.isComment)⟩

/-- The scope of what a declaration at this node declares. -/
def scopeOf : List Tree → VariableScope
  | [] => .file
  | t :: above =>
    if t.kind == .functionDefinition then .function
    else if t.kind == .braceBlock
        && above.head?.any (fun p ↦ p.kind == .typeDefinition || p.kind == .declaration) then .member
    else scopeOf above

/-- The code tokens of a declaration outside its blocks and without the `;` at its end, and the
position among them of the first block. -/
def declarationCode (foci : Array Focus) (t : Tree) : List Focus × Option Nat :=
  let outside (f : Focus) := !t.children.any fun c ↦ c.start ≤ f.index && f.index < c.stop
  let code := (t.foci foci).filter fun f ↦ f.isCode && outside f
  let body := t.block.map fun b ↦ code.countP (·.index < b.start)
  (if code.getLast?.any (·.token.isPunct ";") then code.dropLast else code, body)

/-- The parameter lists of a function definition whose name is followed by `rest`, cut at commas. -/
def parameterParts (rest : List Focus) : List (List Focus) :=
  match rest.filter Focus.isCode with
  | [] => []
  | f :: code =>
    if f.token.isPunct "(" then Declaration.splitCommas 0 (Declaration.parenContent 0 code) else []

def parameters (foci : Array Focus) (t : Tree) (name : Name) : List VariableFact :=
  let rest := (foci.extract (name.token + 1) t.stop).toList
  (parameterParts rest).filterMap fun part ↦
    let (s, declarators) := Declaration.read part none
    declarators.head?.map fun d ↦ ⟨d.name, d.pointerDepth, .parameter, false, false, s.isConst⟩

/-- The labels under a node, in order. -/
def labels (foci : Array Focus) (body : Tree) : List Name :=
  body.preorder.filterMap fun t ↦
    if t.kind == .label then (t.head.name.bind (foci[·]?)).map Name.ofFocus else none

/-- The `goto`s among the tokens of a node, with the identifiers after them. -/
def gotos : List Focus → List GotoFact
  | [] => []
  | f :: rest =>
    let target := (rest.find? Focus.isCode).filter (·.token.isIdentifier)
    match f.token.isKeyword "goto", target with
    | true, some target => ⟨Name.ofFocus f, Name.ofFocus target⟩ :: gotos rest
    | _, _ => gotos rest

def addFunction (foci : Array Focus) (v : Visit) (facts : Facts) : Facts :=
  match v.tree.head.name.bind (foci[·]?) with
  | none => facts
  | some f =>
    let name := Name.ofFocus f
    let body := v.tree.block
    let fact : FunctionFact :=
      { node := v
        name
        body
        labels := (body.map (labels foci)).getD []
        gotos := (body.map fun b ↦ gotos (b.foci foci)).getD [] }
    { facts with
      objects := facts.objects ++ parameters foci v.tree name
      functions := facts.functions ++ [fact] }

def addDeclaration (foci : Array Focus) (v : Visit) (facts : Facts) : Facts :=
  let (code, body) := declarationCode foci v.tree
  let (s, declarators) := Declaration.read code body
  let types :=
    match s.tag, body with
    | some (kind, tag), some _ => [⟨v.tree, some kind, tag, true, none⟩]
    | _, _ => []
  let scope := scopeOf v.above
  let functions := declarators.filter (·.isFunction)
  let declared := declarators.filter (!·.isFunction)
  { facts with
    types := facts.types ++ types
    prototypes :=
      facts.prototypes ++ (if scope == .file then functions.map Declarator.name else [])
    objects := facts.objects ++ declared.map fun d ↦
      ⟨d.name, d.pointerDepth, scope, s.isStatic, s.isExtern, s.isConst⟩ }

def addType (foci : Array Focus) (v : Visit) (facts : Facts) : Facts :=
  let (code, body) := declarationCode foci v.tree
  let (s, declarators) := Declaration.read code body
  let kind := s.tag.map Prod.fst
  let tag := s.tag.bind Prod.snd
  let types : List TypeFact :=
    match s.isTypedef, declarators with
    | true, d :: more =>
      ⟨v.tree, kind, tag, body.isSome, some d.name⟩
        :: more.map fun d ↦ ⟨v.tree, kind, none, false, some d.name⟩
    | _, _ => [⟨v.tree, kind, tag, body.isSome, none⟩]
  { facts with types := facts.types ++ types }

/-- The length of the run of blanks at the head of `bytes`. -/
def blanks (bytes : List UInt8) : Nat :=
  (bytes.takeWhile fun b ↦ b == Text.byte ' ' || b == Text.byte '\t').length

/-- Where the name lies in the bytes of a `#define`, and whether a parameter list follows it. -/
def macroNameRange (bytes : List UInt8) : Option (Nat × Nat × Bool) :=
  let word := 1 + blanks (bytes.drop 1)
  if !(Text.bytesOf "define").isPrefixOf (bytes.drop word) then none
  else
    let start := word + 6 + blanks (bytes.drop (word + 6))
    let stop := start + ((bytes.drop start).takeWhile Text.Byte.isWord).length
    if start < stop then some (start, stop, bytes[stop]? == some (Text.byte '(')) else none

def macroFact? (source : Source) (foci : Array Focus) (t : Tree) : Option MacroFact :=
  foci[t.start]?.bind fun f ↦
    (macroNameRange f.token.bytes).map fun (start, stop, isFunctionLike) ↦
      let base := f.token.span.startByte
      { node := t.id
        name := Text.Utf8.lossy ((f.token.bytes.drop start).take (stop - start))
        span := source.spanFor (base + start) (base + stop)
        isFunctionLike }

def addMacro (source : Source) (foci : Array Focus) (v : Visit) (facts : Facts) : Facts :=
  { facts with macros := facts.macros ++ (macroFact? source foci v.tree).toList }

def addVisit (source : Source) (foci : Array Focus) (facts : Facts) (v : Visit) : Facts :=
  match v.tree.kind with
  | .functionDefinition => addFunction foci v facts
  | .declaration => addDeclaration foci v facts
  | .typeDefinition => addType foci v facts
  | .macroDefinition => addMacro source foci v facts
  | _ => facts

/-- The constants of an enumeration with this body. -/
def constantsIn (foci : Array Focus) (body : Tree) : List Name :=
  let code := ((body.foci foci).filter Focus.isCode).drop 1
  let code := if code.getLast?.any (·.token.isPunct "\x7d") then code.dropLast else code
  (Declaration.splitCommas 0 code).filterMap fun part ↦
    (part.head?.filter (·.token.isIdentifier)).map Name.ofFocus

def enumConstantsOf (foci : Array Focus) (t : TypeFact) : List Name :=
  if t.tagKind == some .enum && t.hasBody then (t.node.block.map (constantsIn foci)).getD [] else []

/-- The text after the word of an `#ifndef`. -/
def guardedName (text : String) : String :=
  let cs := Text.trimStart (text.toList.dropWhile (· == '#'))
  Text.trim (String.ofList (Text.dropAllOf "ifndef".toList cs))

/-- Whether a macro definition under `parent` is the second half of an include guard. -/
def isIncludeGuard (source : Source) (foci : Array Focus) (parent t : Tree) : Bool :=
  match parent.kind, parent.children with
  | .preprocessorBlock, opener :: second :: _ =>
    second.id == t.id && opener.head.directive == some "ifndef"
      && match foci[opener.start]?, macroFact? source foci t with
        | some f, some m => m.name == guardedName f.token.text
        | _, _ => false
  | _, _ => false

/-- The section to which a node belongs, if it belongs to one. -/
def sectionOf (source : Source) (foci : Array Focus) (parent t : Tree) : Option Section :=
  match t.kind with
  | .directive => if t.head.directive == some "include" then some .includes else none
  | .macroDefinition => if isIncludeGuard source foci parent t then none else some .macros
  | .typeDefinition => some .types
  | .declaration => some .globals
  | .functionDefinition => some .functions
  | _ => none

mutual

/-- The sections of the nodes under `t`; conditional groups are looked into. -/
def sectionsIn (source : Source) (foci : Array Focus) : Tree → List SectionFact
  | .node id head children =>
    sectionsAmong source foci (.node id head children) children

def sectionsAmong (source : Source) (foci : Array Focus) (parent : Tree) : List Tree → List SectionFact
  | [] => []
  | t :: rest =>
    (if t.kind == .preprocessorBlock then sectionsIn source foci t
      else (sectionOf source foci parent t).toList.map fun part ↦ ⟨part, t⟩)
      ++ sectionsAmong source foci parent rest

end

/-- The facts of a file. -/
def of (source : Source) (tokens : List Token) (foci : Array Focus) (tree : Tree) : Facts :=
  let facts := (tree.visits []).foldl (addVisit source foci) empty
  { facts with
    lines := lineTable source.lineCount tokens
    enumConstants := facts.types.flatMap (enumConstantsOf foci)
    sections := sectionsIn source foci tree }

/-- The line with the given number. -/
def line? (facts : Facts) (number : Nat) : Option LineFact :=
  if number == 0 then none else facts.lines[number - 1]?

/-- The function that the node with this number defines. -/
def functionAt (facts : Facts) (node : Nat) : Option FunctionFact :=
  facts.functions.find? (·.node.tree.id == node)

end Facts

end CodeStyle
