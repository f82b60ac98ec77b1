import CodeStyle.Json.Reader

/-!
YAML documents: tables and lists laid out by indentation or in brackets, and plain or quoted scalars.
-/

namespace CodeStyle

inductive Yaml where
  | plain (text : String)
  | quoted (text : String)
  | sequence (items : List Yaml)
  | mapping (fields : List (String × Yaml))
deriving Inhabited

namespace Yaml

def isBlank (c : Char) : Bool := c == ' ' || c == '\t'

def isSpace (c : Char) : Bool := isBlank c || c == '\n'

def isFlowSign (c : Char) : Bool := c == ',' || c == '[' || c == ']' || c == '\x7b' || c == '\x7d'

/-- Signs with which no plain scalar starts. -/
def isSign (c : Char) : Bool :=
  isFlowSign c || ['#', '&', '*', '!', '|', '>', '\'', '"', '%', '@', '\x60'].contains c

def trimEnd (cs : List Char) : List Char := (cs.reverse.dropWhile isSpace).reverse

/-- Whether a colon that `rest` follows ends a key. -/
def endsKey (flow : Bool) (rest : List Char) : Bool :=
  rest.head?.all fun c ↦ isSpace c || (flow && isFlowSign c)

/-- Whether a plain scalar starts here. -/
def startsPlain (flow : Bool) : List Char → Bool
  | [] => false
  | c :: rest =>
    if c == '-' then !endsKey false rest
    else if c == '?' || c == ':' then !flow && !endsKey false rest
    else !isSpace c && !isSign c

/-- A plain scalar up to what ends it, after the character `before`. -/
def plainText (flow : Bool) (before : Char) : List Char → List Char × List Char
  | [] => ([], [])
  | c :: rest =>
    if (c == ':' && endsKey flow rest) || (c == '#' && isSpace before) || (flow && isFlowSign c) then
      ([], c :: rest)
    else
      let (text, rest) := plainText flow c rest
      (c :: text, rest)

/-- What stands between two texts with `breaks` line breaks between them. -/
def gap (breaks : Nat) (blanks : List Char) : List Char :=
  match breaks with
  | 0 => blanks
  | 1 => [' ']
  | n + 2 => List.replicate (n + 1) '\n'

/-- The lines of a scalar as one: blanks around line breaks go, a break becomes a blank, and of
several breaks all but the first stay. -/
def fold (cs : List Char) : List Char :=
  let step (c : Char) (folded : List Char × Nat × List Char) : List Char × Nat × List Char :=
    let (out, breaks, blanks) := folded
    if c == '\n' then (out, breaks + 1, [])
    else if isBlank c then (out, breaks, c :: blanks)
    else (c :: (gap breaks blanks ++ out), 0, [])
  let (out, breaks, blanks) := cs.foldr step ([], 0, [])
  gap breaks blanks ++ out

/-- The rest of a scalar in single quotes. -/
def singleQuoted : List Char → Option (List Char × List Char)
  | [] => none
  | '\'' :: '\'' :: rest => (singleQuoted rest).map fun (text, rest) ↦ ('\'' :: text, rest)
  | c :: rest =>
    if c == '\'' then some ([], rest)
    else (singleQuoted rest).map fun (text, rest) ↦ (c :: text, rest)

/-- The value of `count` hexadecimal digits. -/
def hex (value : Nat) : Nat → List Char → Option (Nat × List Char)
  | 0, cs => some (value, cs)
  | _ + 1, [] => none
  | n + 1, c :: rest => (Json.Reader.hexValue? c).bind fun d ↦ hex (value * 16 + d) n rest

def escapes : List (Char × Nat) :=
  [('0', 0), ('a', 7), ('b', 8), ('t', 9), ('\t', 9), ('n', 10), ('v', 11), ('f', 12), ('r', 13),
    ('e', 27), (' ', 32), ('"', 34), ('/', 47), ('\\', 92), ('N', 0x85), ('_', 0xA0), ('L', 0x2028),
    ('P', 0x2029)]

/-- The character after a backslash. -/
def escape : List Char → Option (Char × List Char)
  | [] => none
  | c :: rest =>
    let digits (count : Nat) :=
      (hex 0 count rest).bind fun (n, rest) ↦ if n.isValidChar then some (Char.ofNat n, rest) else none
    if c == 'x' then digits 2
    else if c == 'u' then digits 4
    else if c == 'U' then digits 8
    else (escapes.find? (·.1 == c)).map fun (_, n) ↦ (Char.ofNat n, rest)

/-- A piece of a scalar in double quotes: text as written, or a character that was escaped. -/
inductive Piece where
  | written (c : Char)
  | escaped (c : Char)

/-- The rest of a scalar in double quotes, `fuel` characters at most. A backslash before a line break
joins the lines. -/
def doubleQuoted : Nat → List Char → Option (List Piece × List Char)
  | 0, _ => none
  | _ + 1, [] => none
  | n + 1, c :: rest =>
    if c == '"' then some ([], rest)
    else if c == '\\' then
      match rest with
      | '\n' :: rest => doubleQuoted n (rest.dropWhile isBlank)
      | _ =>
        (escape rest).bind fun (d, rest) ↦
          (doubleQuoted n rest).map fun (pieces, rest) ↦ (.escaped d :: pieces, rest)
    else (doubleQuoted n rest).map fun (pieces, rest) ↦ (.written c :: pieces, rest)

/-- The text of pieces; what is written is folded between what is escaped. -/
def piecesText (pieces : List Piece) : List Char :=
  let step (p : Piece) (s : List Char × List Char) : List Char × List Char :=
    match p with
    | .written c => (c :: s.1, s.2)
    | .escaped c => ([], c :: (fold s.1 ++ s.2))
  let (written, out) := pieces.foldr step ([], [])
  fold written ++ out

/-- A quoted scalar, and what follows it. -/
def quotedScalar : List Char → Option (String × List Char)
  | '\'' :: rest => (singleQuoted rest).map fun (text, rest) ↦ (String.ofList (fold text), rest)
  | '"' :: rest =>
    (doubleQuoted (rest.length + 1) rest).map fun (pieces, rest) ↦
      (String.ofList (piecesText pieces), rest)
  | _ => none

def startsQuoted (cs : List Char) : Bool := cs.head? == some '\'' || cs.head? == some '"'

/-- What comes after blanks, line breaks and comments. -/
def skipSpace : List Char → List Char
  | [] => []
  | c :: rest => if isSpace c then skipSpace rest else if c == '#' then skipComment rest else c :: rest
where
  skipComment : List Char → List Char
    | [] => []
    | c :: rest => if c == '\n' then skipSpace rest else skipComment rest

end Yaml

end CodeStyle
