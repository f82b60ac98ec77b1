import CodeStyle.Text.Affix
import CodeStyle.Yaml.Flow

/-!
Documents laid out by indentation. Main definition: `Yaml.parse?`.
-/

namespace CodeStyle.Yaml

/-- A line without the spaces in front of it, of which there are `indent`. -/
structure Line where
  indent : Nat
  text : List Char
deriving Repr, DecidableEq, Inhabited

namespace Line

def of (cs : List Char) : Line := ⟨(cs.takeWhile (· == ' ')).length, cs.dropWhile (· == ' ')⟩

def raw (line : Line) : List Char := List.replicate line.indent ' ' ++ line.text

/-- Whether nothing but a comment stands on the line. -/
def isVoid (line : Line) : Bool := line.text.head?.all (· == '#')

/-- Whether the line starts an item of a list. -/
def isItem (line : Line) : Bool := line.text.head? == some '-' && endsKey false (line.text.drop 1)

/-- Whether the line has one of the marks around documents. -/
def isMarker (mark : String) (line : Line) : Bool :=
  line.indent == 0 && line.text.take 3 == mark.toList && (line.text.drop 3).head?.all isBlank

end Line

def linesOf (cs : List Char) : List Line := (Text.splitWhere (· == '\n') cs).map Line.of

def skipVoid (lines : List Line) : List Line := lines.dropWhile Line.isVoid

/-- Whether nothing but a comment is left of a line. -/
def isRest (cs : List Char) : Bool := (cs.dropWhile isBlank).head?.all (· == '#')

/-- The key at the start of a line, and what follows its colon. -/
def key? (cs : List Char) : Option (String × List Char) :=
  if startsQuoted cs then
    (quotedScalar cs).bind fun (text, rest) ↦ (afterColon? rest).map (text, ·)
  else if startsPlain false cs then
    let (text, rest) := plainText false ' ' cs
    (afterColon? rest).map (String.ofList (trimEnd text), ·)
  else none
where
  afterColon? (rest : List Char) : Option (List Char) :=
    match rest.dropWhile isBlank with
    | ':' :: rest => if endsKey false rest then some rest else none
    | _ => none

/-- The lines on which a plain scalar goes on. They start at column `least` at the earliest, and none
of them has a key. -/
def furtherLines (least : Nat) : List Line → Option (List Char × List Line)
  | [] => some ([], [])
  | line :: rest =>
    if line.text.isEmpty then (furtherLines least rest).map fun (text, rest) ↦ ('\n' :: text, rest)
    else if line.indent < least || line.text.head? == some '#' then some ([], line :: rest)
    else
      match plainText false ' ' line.text with
      | (text, []) => (furtherLines least rest).map fun (more, rest) ↦ ('\n' :: (text ++ more), rest)
      | (text, '#' :: _) => some ('\n' :: text, rest)
      | _ => none

/-- A scalar, or a list or table in brackets, that starts on a line with `following` lines after it. -/
def inline (least : Nat) (cs : List Char) (following : List Line) : Option (Yaml × List Line) :=
  if startsQuoted cs || cs.head? == some '[' || cs.head? == some '\x7b' then
    let all := cs ++ following.flatMap fun line ↦ '\n' :: line.raw
    (flowValue (2 * all.length + 2) all).bind fun (value, rest) ↦
      let tail := rest.dropWhile (· != '\n')
      if isRest (rest.takeWhile (· != '\n')) then
        some (value, if tail.isEmpty then [] else linesOf (tail.drop 1))
      else none
  else if startsPlain false cs then
    match plainText false ' ' cs with
    | (text, []) =>
      (furtherLines least following).map fun (more, rest) ↦
        (.plain (String.ofList (fold (trimEnd (text ++ more)))), rest)
    | (text, '#' :: _) => some (.plain (String.ofList (trimEnd text)), following)
    | _ => none
  else none

mutual

/-- The value that starts at column `least` at the earliest; if none does, it is left out. -/
def block (fuel least : Nat) (lines : List Line) : Option (Yaml × List Line) :=
  match fuel with
  | 0 => none
  | n + 1 =>
    match skipVoid lines with
    | [] => some (.plain "", [])
    | line :: rest =>
      if line.indent < least then some (.plain "", line :: rest)
      else if line.isItem then
        (blockItems n line.indent (line :: rest)).map fun (items, rest) ↦ (.sequence items, rest)
      else if (key? line.text).isSome then
        (blockFields n line.indent (line :: rest)).map fun (fields, rest) ↦ (.mapping fields, rest)
      else inline least line.text rest

/-- The rest of a list whose dashes stand at column `indent`. -/
def blockItems (fuel indent : Nat) (lines : List Line) : Option (List Yaml × List Line) :=
  match fuel with
  | 0 => none
  | n + 1 =>
    match skipVoid lines with
    | [] => some ([], [])
    | line :: rest =>
      if line.indent == indent && line.isItem then do
        let inner := Line.of (line.text.drop 1)
        let here := if inner.isVoid then [] else [{ inner with indent := indent + 1 + inner.indent }]
        let (item, rest) ← block n (indent + 1) (here ++ rest)
        let (items, rest) ← blockItems n indent rest
        return (item :: items, rest)
      else if indent < line.indent then none
      else some ([], line :: rest)

/-- The rest of a table whose keys stand at column `indent`. -/
def blockFields (fuel indent : Nat) (lines : List Line) : Option (List (String × Yaml) × List Line) :=
  match fuel with
  | 0 => none
  | n + 1 =>
    match skipVoid lines with
    | [] => some ([], [])
    | line :: rest =>
      if line.indent < indent then some ([], line :: rest)
      else if indent < line.indent then none
      else do
        let (key, after) ← key? line.text
        let (value, rest) ← blockFieldValue n indent (after.dropWhile isBlank) rest
        let (fields, rest) ← blockFields n indent rest
        return ((key, value) :: fields, rest)

/-- The value after a colon. A list may have its dashes right under the key. -/
def blockFieldValue (fuel indent : Nat) (after : List Char) (following : List Line) :
    Option (Yaml × List Line) :=
  match fuel with
  | 0 => none
  | n + 1 =>
    if isRest after then
      match skipVoid following with
      | [] => some (.plain "", [])
      | line :: rest =>
        if line.indent == indent && line.isItem then
          (blockItems n indent (line :: rest)).map fun (items, rest) ↦ (.sequence items, rest)
        else block n (indent + 1) (line :: rest)
    else inline (indent + 1) after following

end

/-- The line breaks of a text as single line feeds. -/
def plainBreaks : List Char → List Char
  | [] => []
  | '\r' :: '\n' :: rest => '\n' :: plainBreaks rest
  | c :: rest => (if c == '\r' then '\n' else c) :: plainBreaks rest

def byteOrderMark : Char := Char.ofNat 0xFEFF

/-- The characters that a document may hold. -/
def isAllowed (c : Char) : Bool :=
  c == '\t' || c == '\n' || c == '\r' || (' ' ≤ c && c ≤ '~') || c.toNat == 0x85
    || (0xA0 ≤ c.toNat && c != byteOrderMark && c.toNat != 0xFFFE && c.toNat != 0xFFFF)

/-- The document after its opening mark, if it has one. -/
def document (fuel : Nat) (lines : List Line) : Option (Yaml × List Line) :=
  match skipVoid lines with
  | [] => some (.plain "", [])
  | line :: rest =>
    if !line.isMarker "---" then block fuel 0 (line :: rest)
    else
      let after := (line.text.drop 3).dropWhile isBlank
      if isRest after then block fuel 0 rest else inline 0 after rest

/-- The one document that a text holds. A text that says nothing holds an empty scalar. -/
def parse? (text : String) : Option Yaml :=
  let cs := text.toList
  let cs := if cs.head? == some byteOrderMark then cs.drop 1 else cs
  if !cs.all isAllowed then none
  else
    let lines := linesOf (plainBreaks cs)
    let body := lines.takeWhile (! Line.isMarker "..." ·)
    let after := lines.drop (body.length + 1)
    if ((skipVoid body).drop 1).any (Line.isMarker "---") || !(skipVoid after).isEmpty then none
    else
      match document (2 * cs.length + 4) body with
      | some (value, rest) => if (skipVoid rest).isEmpty then some value else none
      | none => none

end CodeStyle.Yaml
