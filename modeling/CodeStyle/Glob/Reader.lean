import CodeStyle.Glob.Basic

/-!
Reading globs: `?`, `*`, `**` between slashes, sets in brackets, alternatives in braces, and a
backslash that makes a sign stand for itself.
-/

namespace CodeStyle.Glob

inductive Fault where
  | unclosedSet
  | invalidRange (low high : Char)
  | unopenedAlternatives
  | unclosedAlternatives
  | danglingEscape
deriving Repr, DecidableEq, Inhabited

def Fault.reason : Fault → String
  | unclosedSet => "unclosed character class; missing ']'"
  | invalidRange low high => "invalid range; '" ++ low.toString ++ "' > '" ++ high.toString ++ "'"
  | unopenedAlternatives =>
    "unopened alternate group; missing '\x7b' (maybe escape '\x7d' with '[\x7d]'?)"
  | unclosedAlternatives =>
    "unclosed alternate group; missing '\x7d' (maybe escape '\x7b' with '[\x7b]'?)"
  | danglingEscape => "dangling '\\'"

namespace Reader

def bytesOfChar (c : Char) : List UInt8 := Text.bytesOf c.toString

def literal (c : Char) : Part := .literal (bytesOfChar c)

def singles (bytes : List UInt8) : List (UInt8 × UInt8) := bytes.map fun b ↦ (b, b)

/-- The bytes of a range of characters: the last byte of the first character through the first byte
of the last one, and all other bytes of the two by themselves. -/
def byteRanges (low high : Char) : List (UInt8 × UInt8) :=
  if low == high then singles (bytesOfChar low)
  else
    match (bytesOfChar low).reverse, bytesOfChar high with
    | l :: before, h :: after => singles before.reverse ++ [(l, h)] ++ singles after
    | _, _ => []

/-- A set after its opening bracket and the sign of negation. The ranges so far come latest first;
`open?` tells whether a dash waits for the end of the latest. -/
def setItems (ranges : List (Char × Char)) (isOpen : Bool) :
    List Char → Except Fault (List (Char × Char) × List Char)
  | [] => .error .unclosedSet
  | c :: rest =>
    if c == ']' && !ranges.isEmpty then
      .ok (((if isOpen then [('-', '-')] else []) ++ ranges).reverse, rest)
    else if c == '-' && !ranges.isEmpty && !isOpen then setItems ranges true rest
    else
      match isOpen, ranges with
      | true, (low, _) :: earlier =>
        if c < low then .error (.invalidRange low c) else setItems ((low, c) :: earlier) false rest
      | _, _ => setItems ((c, c) :: ranges) false rest

def set (cs : List Char) : Except Fault (Part × List Char) := do
  let negated := cs.head? == some '!' || cs.head? == some '^'
  let (ranges, rest) ← setItems [] false (if negated then cs.drop 1 else cs)
  return (.set negated (ranges.flatMap fun (low, high) ↦ byteRanges low high), rest)

/-- What a sign adds to the parts so far, which come latest first; the last character that it takes,
and the rest. -/
structure Step where
  parts : List Part
  last : Char
  rest : List Char

/-- The parts when `**` is no more than two signs. -/
def twoStars (parts : List Part) (rest : List Char) : Step := ⟨.many :: .many :: parts, '*', rest⟩

/-- Puts a sign for whole folders in place of the slash before it; such a sign stays as it is. -/
def putFolders (folders : Part) : List Part → List Part
  | .leading :: earlier => .leading :: earlier
  | .trailing :: earlier => .trailing :: earlier
  | _ :: earlier => folders :: earlier
  | [] => [folders]

/-- The parts after `**`, where `before` is the character in front of it. -/
def doubleStar (nested : Bool) (parts : List Part) (before : Option Char) (rest : List Char) : Step :=
  if parts.isEmpty then
    match rest with
    | [] => ⟨[.leading], '*', []⟩
    | '/' :: rest => ⟨[.leading], '/', rest⟩
    | _ => twoStars parts rest
  else if before != some '/' && !(nested && (before == some ',' || before == some '\x7b')) then
    twoStars parts rest
  else
    match rest with
    | [] => ⟨putFolders .trailing parts, '*', []⟩
    | c :: more =>
      if nested && (c == ',' || c == '\x7d') then ⟨putFolders .trailing parts, '*', rest⟩
      else if c == '/' then ⟨putFolders .middle parts, '/', more⟩
      else twoStars parts rest

/-- The parts after a star. -/
def star (nested : Bool) (parts : List Part) (before : Option Char) : List Char → Step
  | '*' :: rest => doubleStar nested parts before rest
  | rest => ⟨.many :: parts, '*', rest⟩

/-- Reads parts up to the end, or up to the comma or brace that ends an alternative. -/
abbrev Sequence := Option Char → List Char → Except Fault (List Part × List Char)

/-- The alternatives of a group after a brace or comma, which is the character `before`. -/
def alternatives (sequence : Sequence) (before : Char) (earlier : List (List Part)) :
    Nat → List Char → Except Fault (Part × List Char)
  | 0, _ => .error .unclosedAlternatives
  | n + 1, cs =>
    match sequence (some before) cs with
    | .error e => .error e
    | .ok (parts, ',' :: rest) => alternatives sequence ',' (parts :: earlier) n rest
    | .ok (parts, '\x7d' :: rest) => .ok (.oneOf (parts :: earlier).reverse, rest)
    | .ok _ => .error .unclosedAlternatives

/-- The parts that come after those in `parts`, with the character in front of them. -/
def sequence (nested : Bool) (parts : List Part) :
    Nat → Option Char → List Char → Except Fault (List Part × List Char)
  | 0, _, cs => .ok (parts.reverse, cs)
  | n + 1, before, cs =>
    match cs with
    | [] => .ok (parts.reverse, [])
    | c :: rest =>
      if c == '?' then sequence nested (.one :: parts) n (some c) rest
      else if c == '*' then
        let s := star nested parts before rest
        sequence nested s.parts n (some s.last) s.rest
      else if c == '[' then
        match set rest with
        | .error e => .error e
        | .ok (p, rest) => sequence nested (p :: parts) n (some ']') rest
      else if c == '\x7b' then
        match alternatives (sequence true [] n) c [] (n + 1) rest with
        | .error e => .error e
        | .ok (p, rest) => sequence nested (p :: parts) n (some '\x7d') rest
      else if c == '\x7d' then
        if nested then .ok (parts.reverse, cs) else .error .unopenedAlternatives
      else if c == ',' && nested then .ok (parts.reverse, cs)
      else if c == '\\' then
        match rest with
        | [] => .error .danglingEscape
        | d :: rest => sequence nested (literal d :: parts) n (some d) rest
      else sequence nested (literal c :: parts) n (some c) rest

end Reader

/-- The glob that a text describes. -/
def parse (text : String) : Except Fault Glob :=
  let cs := text.toList
  (Reader.sequence false [] (cs.length + 1) none cs).map fun (parts, _) ↦ ⟨parts⟩

end CodeStyle.Glob
