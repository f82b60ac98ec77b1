import CodeStyle.Token.Focus

/-!
Reading a declaration: the specifiers first, then the declarators between commas. The readers work
on the code tokens of the declaration.
-/

namespace CodeStyle

/-- An identifier of a file: which token it is, its text and where it stands. -/
structure Name where
  token : Nat
  text : String
  span : Span
deriving Repr, DecidableEq, Inhabited

def Name.ofFocus (f : Focus) : Name := ⟨f.index, f.token.text, f.token.span⟩

inductive TagKind where
  | struct
  | union
  | enum
deriving Repr, DecidableEq, Inhabited

namespace TagKind

def word : TagKind → String
  | struct => "struct"
  | union => "union"
  | enum => "enum"

def ofKeyword? : String → Option TagKind
  | "struct" => some struct
  | "union" => some union
  | "enum" => some enum
  | _ => none

/-- How a tag of this kind has to start. -/
def tagStart : TagKind → String
  | struct => "st_"
  | union => "u_"
  | enum => "e_"

end TagKind

/-- What the specifiers of a declaration say. -/
structure Specifiers where
  isTypedef : Bool
  isStatic : Bool
  isExtern : Bool
  isConst : Bool
  tag : Option (TagKind × Option Name)
deriving Repr, DecidableEq, Inhabited

structure Declarator where
  name : Name
  pointerDepth : Nat
  isFunction : Bool
deriving Repr, DecidableEq, Inhabited

namespace Declaration

/-- Keywords that name a type by themselves. -/
def baseTypes : List String :=
  ["void", "char", "short", "int", "long", "float", "double", "signed", "unsigned", "_Bool",
    "_Complex"]

def noSpecifiers : Specifiers := ⟨false, false, false, false, none⟩

def withKeyword (s : Specifiers) (word : String) : Specifiers :=
  { s with
    isTypedef := s.isTypedef || word == "typedef"
    isStatic := s.isStatic || word == "static"
    isExtern := s.isExtern || word == "extern"
    isConst := s.isConst || word == "const" }

/-- Reads specifiers from position `pos` on; `hasBase` says whether a type was named. Gives the
specifiers, whether a type was named, and the tokens after them. A body that was cut out stood at
position `body`, and an identifier from there on is no tag. -/
def specifiers (body : Option Nat) (pos : Nat) (hasBase : Bool) (s : Specifiers) :
    List Focus → Specifiers × Bool × List Focus
  | [] => (s, hasBase, [])
  | f :: rest =>
    let t := f.token
    if t.kind == .keyword then
      match TagKind.ofKeyword? t.text with
      | some kind =>
        match rest with
        | [] => ({ s with tag := some (kind, none) }, true, [])
        | tag :: rest =>
          if body.all (pos + 1 < ·) && tag.token.isIdentifier then
            specifiers body (pos + 2) true { s with tag := some (kind, some (Name.ofFocus tag)) } rest
          else specifiers body (pos + 1) true { s with tag := some (kind, none) } (tag :: rest)
      | none =>
        if t.opensDeclaration then
          specifiers body (pos + 1) (hasBase || baseTypes.contains t.text) (withKeyword s t.text) rest
        else (s, hasBase, f :: rest)
    else if t.isIdentifier && !hasBase then
      let declares := rest.head?.any fun n ↦
        n.token.isIdentifier || n.token.isPunct "*" || n.token.isPunct "("
          || n.token.kind == .keyword
      if declares then specifiers body (pos + 1) true s rest else (s, hasBase, f :: rest)
    else (s, hasBase, f :: rest)
termination_by code => code.length

def isOpening (f : Focus) : Bool :=
  f.token.isPunct "(" || f.token.isPunct "[" || f.token.isPunct "\x7b"

def isClosing (f : Focus) : Bool :=
  f.token.isPunct ")" || f.token.isPunct "]" || f.token.isPunct "\x7d"

/-- The number of open brackets after a token. -/
def bracketDepth (depth : Nat) (f : Focus) : Nat :=
  if isOpening f then depth + 1 else if isClosing f then depth - 1 else depth

/-- Cuts at the commas outside brackets. -/
def splitCommas (depth : Nat) : List Focus → List (List Focus)
  | [] => [[]]
  | f :: rest =>
    if depth == 0 && f.token.isPunct "," then [] :: splitCommas 0 rest
    else
      match splitCommas (bracketDepth depth f) rest with
      | [] => [[f]]
      | part :: parts => (f :: part) :: parts

/-- The part before an initializer or a bit-field width. -/
def beforeValue (depth : Nat) : List Focus → List Focus
  | [] => []
  | f :: rest =>
    if depth == 0 && (f.token.isPunct "=" || f.token.isPunct ":") then []
    else f :: beforeValue (bracketDepth depth f) rest

def opensGroup (f : Focus) : Bool := f.token.isPunct "(" || f.token.isPunct "["

/-- The tokens before the parenthesis that closes the innermost of `depth + 1` open ones. -/
def parenContent (depth : Nat) : List Focus → List Focus
  | [] => []
  | f :: rest =>
    if f.token.isPunct "(" then f :: parenContent (depth + 1) rest
    else if f.token.isPunct ")" then
      match depth with
      | 0 => []
      | d + 1 => f :: parenContent d rest
    else f :: parenContent depth rest

def lastIdentifier (code : List Focus) : Option Focus := code.reverse.find? (·.token.isIdentifier)

def countStars (code : List Focus) : Nat := code.countP (·.token.isPunct "*")

/-- Reads one declarator. Its name is the last identifier before the first parenthesis or bracket;
in `(*name)(...)` it is looked for inside the parentheses. -/
def declarator? (part : List Focus) : Option Declarator :=
  let part := beforeValue 0 part
  let head := part.takeWhile (!opensGroup ·)
  let tail := part.dropWhile (!opensGroup ·)
  let opensParen := tail.head?.any (·.token.isPunct "(")
  let inner := tail.drop 1
  if opensParen && inner.head?.any (·.token.isPunct "*") then
    let inner := parenContent 0 inner
    (lastIdentifier (inner.takeWhile (!opensGroup ·))).map fun name ↦
      ⟨Name.ofFocus name, countStars inner, false⟩
  else
    (lastIdentifier head).map fun name ↦
      ⟨Name.ofFocus name, countStars head, opensParen && head.getLast?.any (·.index == name.index)⟩

/-- The specifiers and declarators of a declaration, given its code tokens and where a body was cut
out of them. -/
def read (code : List Focus) (body : Option Nat) : Specifiers × List Declarator :=
  let (s, hasBase, rest) := specifiers body 0 false noSpecifiers code
  (s, if hasBase then (splitCommas 0 rest).filterMap declarator? else [])

end Declaration

end CodeStyle
