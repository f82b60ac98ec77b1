import CodeStyle.Yaml.Basic

/-!
Lists in square brackets and tables in braces. Line breaks inside them do not count.
-/

namespace CodeStyle.Yaml

/-- A scalar inside brackets, with what follows it. -/
def flowScalar (cs : List Char) : Option (Yaml × List Char) :=
  if startsQuoted cs then (quotedScalar cs).map fun (text, rest) ↦ (.quoted text, rest)
  else if startsPlain true cs then
    match plainText true ' ' cs with
    | (_, ':' :: d :: _) => if isFlowSign d || d == '?' then none else plainScalar cs
    | _ => plainScalar cs
  else none
where
  plainScalar (cs : List Char) : Option (Yaml × List Char) :=
    let (text, rest) := plainText true ' ' cs
    some (.plain (String.ofList (fold (trimEnd text))), rest)

def scalarText? : Yaml → Option String
  | plain text => some text
  | quoted text => some text
  | _ => none

/-- What follows a comma, or the closing sign itself. -/
def afterItem (close : Char) (cs : List Char) : Option (List Char) :=
  match skipSpace cs with
  | [] => none
  | c :: rest => if c == ',' then some (skipSpace rest) else if c == close then some (c :: rest) else none

mutual

/-- A value inside brackets, with what follows it; `fuel` bounds how deep it goes. -/
def flowValue (fuel : Nat) (cs : List Char) : Option (Yaml × List Char) :=
  match fuel with
  | 0 => none
  | n + 1 =>
    match cs with
    | [] => none
    | c :: rest =>
      if c == '[' then (flowItems n (skipSpace rest)).map fun (items, rest) ↦ (.sequence items, rest)
      else if c == '\x7b' then
        (flowFields n (skipSpace rest)).map fun (fields, rest) ↦ (.mapping fields, rest)
      else flowScalar (c :: rest)

/-- The rest of a list. A field stands for a table that has it alone. -/
def flowItems (fuel : Nat) (cs : List Char) : Option (List Yaml × List Char) :=
  match fuel with
  | 0 => none
  | n + 1 =>
    match cs with
    | [] => none
    | c :: rest =>
      if c == ']' then some ([], rest)
      else do
        let (item, rest) ← flowValue n (c :: rest)
        let (item, rest) ←
          match skipSpace rest with
          | ':' :: rest => do
            let key ← scalarText? item
            let (value, rest) ← flowFieldValue n ']' (skipSpace rest)
            some (.mapping [(key, value)], rest)
          | _ => some (item, rest)
        let (items, rest) ← flowItems n (← afterItem ']' rest)
        return (item :: items, rest)

/-- The rest of a table. -/
def flowFields (fuel : Nat) (cs : List Char) : Option (List (String × Yaml) × List Char) :=
  match fuel with
  | 0 => none
  | n + 1 =>
    match cs with
    | [] => none
    | c :: rest =>
      if c == '\x7d' then some ([], rest)
      else do
        let (key, rest) ← flowScalar (c :: rest)
        let key ← scalarText? key
        let (value, rest) ←
          match skipSpace rest with
          | ':' :: rest => flowFieldValue n '\x7d' (skipSpace rest)
          | rest => some (.plain "", rest)
        let (fields, rest) ← flowFields n (← afterItem '\x7d' rest)
        return ((key, value) :: fields, rest)

/-- The value after a colon; it may be left out. -/
def flowFieldValue (fuel : Nat) (close : Char) (cs : List Char) : Option (Yaml × List Char) :=
  match fuel with
  | 0 => none
  | n + 1 =>
    if cs.head? == some ',' || cs.head? == some close then some (.plain "", cs) else flowValue n cs

end

end CodeStyle.Yaml
