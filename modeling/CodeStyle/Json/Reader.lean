import CodeStyle.Json.Basic

/-!
Reading JSON text. The whole text has to be one value; control characters in strings, lone
surrogates and trailing text are refused.
-/

namespace CodeStyle.Json

/-- Reads something from the head of a text and gives what follows it. -/
abbrev Reader (α : Type) := List Char → Option (α × List Char)

namespace Reader

def isSpace (c : Char) : Bool := c == ' ' || c == '\t' || c == '\n' || c == '\r'

def skipSpace (cs : List Char) : List Char := cs.dropWhile isSpace

def word (w : String) (cs : List Char) : Option (List Char) :=
  if w.toList.isPrefixOf cs then some (cs.drop w.length) else none

def hexValue? (c : Char) : Option Nat :=
  if '0' ≤ c && c ≤ '9' then some (c.toNat - '0'.toNat)
  else if 'a' ≤ c && c ≤ 'f' then some (c.toNat - 'a'.toNat + 10)
  else if 'A' ≤ c && c ≤ 'F' then some (c.toNat - 'A'.toNat + 10)
  else none

def hex4 : Reader Nat
  | a :: b :: c :: d :: rest => do
    let a ← hexValue? a
    let b ← hexValue? b
    let c ← hexValue? c
    let d ← hexValue? d
    return (((a * 16 + b) * 16 + c) * 16 + d, rest)
  | _ => none

/-- The character after `\u`; a pair of surrogates is one character. -/
def unicode (cs : List Char) : Option (Char × List Char) := do
  let (n, rest) ← hex4 cs
  if 0xD800 ≤ n && n < 0xDC00 then
    match rest with
    | '\\' :: 'u' :: rest => do
      let (m, rest) ← hex4 rest
      if 0xDC00 ≤ m && m < 0xE000 then
        some (Char.ofNat (0x10000 + (n - 0xD800) * 0x400 + (m - 0xDC00)), rest)
      else none
    | _ => none
  else if 0xDC00 ≤ n && n < 0xE000 then none
  else some (Char.ofNat n, rest)

/-- The character after a backslash. -/
def escape : Reader Char
  | '"' :: rest => some ('"', rest)
  | '\\' :: rest => some ('\\', rest)
  | '/' :: rest => some ('/', rest)
  | 'b' :: rest => some ('\x08', rest)
  | 'f' :: rest => some ('\x0c', rest)
  | 'n' :: rest => some ('\n', rest)
  | 'r' :: rest => some ('\r', rest)
  | 't' :: rest => some ('\t', rest)
  | 'u' :: rest => unicode rest
  | _ => none

/-- The rest of a string after its opening quote. -/
def stringBody (acc : List Char) : Nat → Reader String
  | 0, _ => none
  | _ + 1, [] => none
  | n + 1, c :: rest =>
    if c == '"' then some (String.ofList acc.reverse, rest)
    else if c == '\\' then
      match escape rest with
      | some (d, rest) => stringBody (d :: acc) n rest
      | none => none
    else if c.toNat < 0x20 then none
    else stringBody (c :: acc) n rest

def string (cs : List Char) : Option (String × List Char) := stringBody [] (cs.length + 1) cs

def digits (cs : List Char) : List Char × List Char := (cs.takeWhile Char.isDigit, cs.dropWhile Char.isDigit)

def natOf (ds : List Char) : Nat := ds.foldl (fun n d ↦ n * 10 + (d.toNat - '0'.toNat)) 0

/-- The part of a number after the point, empty if there is none. -/
def fraction (cs : List Char) : Option (List Char × List Char) :=
  match cs with
  | '.' :: rest =>
    match digits rest with
    | ([], _) => none
    | (ds, rest) => some ('.' :: ds, rest)
  | _ => some ([], cs)

def exponentDigits (mark : List Char) (cs : List Char) : Option (List Char × List Char) :=
  match digits cs with
  | ([], _) => none
  | (ds, rest) => some (mark ++ ds, rest)

/-- The exponent of a number, empty if there is none. -/
def exponent (cs : List Char) : Option (List Char × List Char) :=
  match cs with
  | [] => some ([], [])
  | e :: rest =>
    if e == 'e' || e == 'E' then
      match rest with
      | '+' :: rest => exponentDigits [e, '+'] rest
      | '-' :: rest => exponentDigits [e, '-'] rest
      | _ => exponentDigits [e] rest
    else some ([], cs)

/-- A number; `-0` counts as a real one. -/
def number (cs : List Char) : Option (Json × List Char) := do
  let negative := cs.head? == some '-'
  let (whole, rest) := digits (if negative then cs.drop 1 else cs)
  if whole.isEmpty || (1 < whole.length && whole.head? == some '0') then none
  else
    let (frac, rest) ← fraction rest
    let (exp, rest) ← exponent rest
    let n := natOf whole
    if frac.isEmpty && exp.isEmpty && !(negative && n == 0) then
      some (integer (if negative then -(n : Int) else n), rest)
    else
      let sign := if negative then ['-'] else []
      some (real (String.ofList (sign ++ whole ++ frac ++ exp)), rest)

/-- The items of an array after the first, or after its bracket. -/
def items (value : Reader Json) (acc : List Json) : Nat → Reader (List Json)
  | 0, _ => none
  | n + 1, cs => do
    let (v, rest) ← value (skipSpace cs)
    match skipSpace rest with
    | ',' :: rest => items value (v :: acc) n rest
    | ']' :: rest => some ((v :: acc).reverse, rest)
    | _ => none

def fields (value : Reader Json) (acc : List (String × Json)) : Nat → Reader (List (String × Json))
  | 0, _ => none
  | n + 1, cs => do
    match skipSpace cs with
    | '"' :: rest =>
      let (name, rest) ← string rest
      match skipSpace rest with
      | ':' :: rest =>
        let (v, rest) ← value (skipSpace rest)
        match skipSpace rest with
        | ',' :: rest => fields value ((name, v) :: acc) n rest
        | '\x7d' :: rest => some (((name, v) :: acc).reverse, rest)
        | _ => none
      | _ => none
    | _ => none

/-- A value nested less than the given number deep. -/
def value : Nat → Reader Json
  | 0, _ => none
  | n + 1, cs =>
    match cs with
    | '"' :: rest => (string rest).map fun (s, rest) ↦ (.string s, rest)
    | '[' :: rest =>
      match skipSpace rest with
      | ']' :: rest => some (array [], rest)
      | rest => (items (value n) [] (rest.length + 1) rest).map fun (vs, rest) ↦ (array vs, rest)
    | '\x7b' :: rest =>
      match skipSpace rest with
      | '\x7d' :: rest => some (object [], rest)
      | rest => (fields (value n) [] (rest.length + 1) rest).map fun (fs, rest) ↦ (object fs, rest)
    | 'n' :: _ => (word "null" cs).map (null, ·)
    | 't' :: _ => (word "true" cs).map (bool true, ·)
    | 'f' :: _ => (word "false" cs).map (bool false, ·)
    | _ => number cs

end Reader

/-- The value of a JSON text. -/
def parse? (text : String) : Option Json :=
  let cs := text.toList
  match Reader.value (cs.length + 1) (Reader.skipSpace cs) with
  | some (v, rest) => if (Reader.skipSpace rest).isEmpty then some v else none
  | none => none

end CodeStyle.Json
