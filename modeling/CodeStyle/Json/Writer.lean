import CodeStyle.Json.Basic

/-!
Writing JSON text, on one line or laid out with two blanks for each level.
-/

namespace CodeStyle.Json

def hexDigit (n : Nat) : Char := (Nat.toDigits 16 n).headD '0'

/-- A character inside a string; only what has to be escaped is. -/
def escaped (c : Char) : List Char :=
  if c == '"' then ['\\', '"']
  else if c == '\\' then ['\\', '\\']
  else if c == '\x08' then ['\\', 'b']
  else if c == '\x0c' then ['\\', 'f']
  else if c == '\n' then ['\\', 'n']
  else if c == '\r' then ['\\', 'r']
  else if c == '\t' then ['\\', 't']
  else if c.toNat < 0x20 then ['\\', 'u', '0', '0', hexDigit (c.toNat / 16), hexDigit (c.toNat % 16)]
  else [c]

def quoted (s : String) : String := "\"" ++ String.ofList (s.toList.flatMap escaped) ++ "\""

mutual

/-- The value on one line. -/
def compact : Json → String
  | null => "null"
  | bool b => if b then "true" else "false"
  | integer n => toString n
  | real text => text
  | string s => quoted s
  | array items => "[" ++ ",".intercalate (compactItems items) ++ "]"
  | object fields => "\x7b" ++ ",".intercalate (compactFields fields) ++ "\x7d"

def compactItems : List Json → List String
  | [] => []
  | v :: rest => compact v :: compactItems rest

def compactFields : List (String × Json) → List String
  | [] => []
  | (name, v) :: rest => (quoted name ++ ":" ++ compact v) :: compactFields rest

end

/-- The parts of an array or object on lines of their own; an empty one has none. -/
def spread (indent : String) (opening closing : String) (parts : List String) : String :=
  if parts.isEmpty then opening ++ closing
  else
    let lines := parts.map fun p ↦ indent ++ "  " ++ p
    opening ++ "\n" ++ ",\n".intercalate lines ++ "\n" ++ indent ++ closing

mutual

/-- The value laid out, with its inner lines indented more than `indent`. -/
def layout (indent : String) : Json → String
  | null => "null"
  | bool b => if b then "true" else "false"
  | integer n => toString n
  | real text => text
  | string s => quoted s
  | array items => spread indent "[" "]" (layoutItems (indent ++ "  ") items)
  | object fields => spread indent "\x7b" "\x7d" (layoutFields (indent ++ "  ") fields)

def layoutItems (indent : String) : List Json → List String
  | [] => []
  | v :: rest => layout indent v :: layoutItems indent rest

def layoutFields (indent : String) : List (String × Json) → List String
  | [] => []
  | (name, v) :: rest => (quoted name ++ ": " ++ layout indent v) :: layoutFields indent rest

end

/-- The value laid out over several lines. -/
def pretty (v : Json) : String := layout "" v

end CodeStyle.Json
