import CodeStyle.Pattern.Basic

/-!
Reading patterns. The characters `. * + ? | ^ $ ( ) [` and backslash have a meaning of their own;
groups are named by `(?P<name> )`, and `(?i)`, `(?m)` and `(?s)` change how the rest is read.
-/

namespace CodeStyle.Pattern

/-- How what follows is read. -/
structure Flags where
  caseless : Bool
  multiline : Bool
  /-- Whether `.` stands for a line feed too. -/
  dotAll : Bool
deriving Repr, DecidableEq, Inhabited

namespace Reader

def Flags.none : Flags := ⟨false, false, false⟩

/-- The flags after `(?`, up to the character that ends them. -/
def flags (f : Flags) : List Char → Flags × List Char
  | 'i' :: rest => flags { f with caseless := true } rest
  | 'm' :: rest => flags { f with multiline := true } rest
  | 's' :: rest => flags { f with dotAll := true } rest
  | cs => (f, cs)

/-- Whether a backslash makes the character stand for itself. -/
def isEscapable (c : Char) : Bool :=
  c.toNat < 0x80 && !c.isAlphanum && c != '<' && c != '>'

/-- The character that a letter after a backslash stands for. -/
def letterEscape? (c : Char) : Option Char :=
  if c == 't' then some '\t'
  else if c == 'n' then some '\n'
  else if c == 'r' then some '\r'
  else if c == 'f' then some '\x0c'
  else if c == 'v' then some '\x0b'
  else if c == 'a' then some '\x07'
  else none

def escapedChar? (c : Char) : Option Char := if isEscapable c then some c else letterEscape? c

/-- One character of a set, and the rest. -/
def setChar : List Char → Option (Char × List Char)
  | [] => none
  | '\\' :: rest =>
    match rest with
    | [] => none
    | c :: rest => (escapedChar? c).map (·, rest)
  | '[' :: _ => none
  | c :: rest => some (c, rest)

/-- The ranges of a set up to its closing bracket, after those in `acc`. -/
def setItems (acc : List (Char × Char)) : Nat → List Char → Option (List (Char × Char) × List Char)
  | 0, _ => none
  | _ + 1, ']' :: rest => some (acc.reverse, rest)
  | n + 1, '\\' :: 's' :: rest => setItems (CharSet.blankRanges.reverse ++ acc) n rest
  | n + 1, cs => do
    let (low, rest) ← setChar cs
    match rest with
    | '-' :: ']' :: rest => some ((('-', '-') :: (low, low) :: acc).reverse, rest)
    | '-' :: rest => do
      let (high, rest) ← setChar rest
      if low ≤ high then setItems ((low, high) :: acc) n rest else none
    | _ => setItems ((low, low) :: acc) n rest

/-- A set after its opening bracket. Dashes and then a bracket that come first stand for
themselves. -/
def set (f : Flags) (cs : List Char) : Option (Pattern × List Char) := do
  let negated := cs.head? == some '^'
  let cs := if negated then cs.drop 1 else cs
  let dashes := cs.takeWhile (· == '-')
  let cs := cs.dropWhile (· == '-')
  let bracket := dashes.isEmpty && cs.head? == some ']'
  let first := dashes.map (fun c ↦ (c, c)) ++ (if bracket then [(']', ']')] else [])
  let (ranges, rest) ← setItems first.reverse (cs.length + 1) (if bracket then cs.drop 1 else cs)
  return (char ⟨ranges, negated, f.caseless⟩, rest)

def escape (f : Flags) : List Char → Option (Pattern × List Char)
  | [] => none
  | 's' :: rest => some (char ⟨CharSet.blankRanges, false, false⟩, rest)
  | 'S' :: rest => some (char ⟨CharSet.blankRanges, true, false⟩, rest)
  | c :: rest => (escapedChar? c).map fun c ↦ (char ⟨[(c, c)], false, f.caseless⟩, rest)

def isNameChar (c : Char) : Bool := c.isAlphanum || c == '_'

/-- The name of a group up to its closing angle, and the rest. -/
def groupName (cs : List Char) : Option (String × List Char) :=
  let name := cs.takeWhile isNameChar
  match cs.dropWhile isNameChar with
  | '>' :: rest =>
    if name.head?.any (!·.isDigit) then some (String.ofList name, rest) else none
  | _ => none

/-- Reads the inside of a group up to its closing parenthesis, which it leaves. -/
abbrev Body := Flags → List Char → Option (Pattern × List Char)

def closing (wrap : Pattern → Pattern) : Option (Pattern × List Char) → Option (Pattern × List Char)
  | some (p, ')' :: rest) => some (wrap p, rest)
  | _ => none

def named (body : Body) (f : Flags) (cs : List Char) : Option (Pattern × List Char) := do
  let (name, rest) ← groupName cs
  closing (group name) (body f rest)

/-- A group after its opening parenthesis. -/
def parenthesis (body : Body) (f : Flags) : List Char → Option (Pattern × List Char)
  | '?' :: 'P' :: '<' :: rest => named body f rest
  | '?' :: '<' :: rest => named body f rest
  | '?' :: rest =>
    match flags f rest with
    | (f, ':' :: rest) => closing id (body f rest)
    | _ => none
  | rest => closing id (body f rest)

/-- What may be repeated: a character, a set, a group or a place. -/
def atom (body : Body) (f : Flags) : List Char → Option (Pattern × List Char)
  | [] => none
  | '(' :: rest => parenthesis body f rest
  | '[' :: rest => set f rest
  | '\\' :: rest => escape f rest
  | '.' :: rest => some (char ⟨if f.dotAll then [] else [('\n', '\n')], true, false⟩, rest)
  | '^' :: rest => some (if f.multiline then startOfLine else startOfText, rest)
  | '$' :: rest => some (if f.multiline then endOfLine else endOfText, rest)
  | c :: rest =>
    if c == '*' || c == '+' || c == '?' || c == '\x7b' then none
    else some (char ⟨[(c, c)], false, f.caseless⟩, rest)

/-- The pattern with the signs of repetition that follow it. -/
def quantified (p : Pattern) : List Char → Pattern × List Char
  | '*' :: '?' :: rest => quantified (star p false) rest
  | '*' :: rest => quantified (star p true) rest
  | '+' :: '?' :: rest => quantified (plus p false) rest
  | '+' :: rest => quantified (plus p true) rest
  | '?' :: '?' :: rest => quantified (opt p false) rest
  | '?' :: rest => quantified (opt p true) rest
  | rest => (p, rest)

/-- The flags that `(?` and `)` enclose, if that is what comes next. -/
def flagGroup? (f : Flags) : List Char → Option (Flags × List Char)
  | '(' :: '?' :: rest =>
    match flags f rest with
    | (g, ')' :: more) => if more.length + 1 == rest.length then none else some (g, more)
    | _ => none
  | _ => none

/-- The alternatives in `earlier` and then one that goes on after the parts in `current`, read up to
the end or to a closing parenthesis. -/
def alternatives (earlier : List Pattern) (current : List Pattern) :
    Nat → Flags → List Char → Option (Pattern × List Char)
  | 0, _, _ => none
  | n + 1, f, cs =>
    let here := all current.reverse
    match cs with
    | [] => some (any (here :: earlier).reverse, [])
    | ')' :: _ => some (any (here :: earlier).reverse, cs)
    | '|' :: rest => alternatives (here :: earlier) [] n f rest
    | _ =>
      match flagGroup? f cs with
      | some (f, rest) => alternatives earlier current n f rest
      | none =>
        match atom (alternatives [] [] n) f cs with
        | some (p, rest) =>
          let (p, rest) := quantified p rest
          alternatives earlier (p :: current) n f rest
        | none => none

def areDistinct : List String → Bool
  | [] => true
  | a :: rest => !rest.contains a && areDistinct rest

end Reader

/-- The pattern that a text describes. -/
def parse? (text : String) : Option Pattern :=
  let cs := text.toList
  match Reader.alternatives [] [] (cs.length + 1) Reader.Flags.none cs with
  | some (p, []) => if Reader.areDistinct p.groupNames then some p else none
  | _ => none

end CodeStyle.Pattern
