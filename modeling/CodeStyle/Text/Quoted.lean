import CodeStyle.Text.Printable

/-!
Text in quotes, as messages show it. Quotes, backslashes and what cannot be shown are escaped.
-/

namespace CodeStyle.Text

/-- A character by its number. -/
def numbered (c : Char) : List Char :=
  ['\\', 'u', '\x7b'] ++ Nat.toDigits 16 c.toNat ++ ['\x7d']

def escapeShown (c : Char) : List Char :=
  if c == '"' then ['\\', '"']
  else if c == '\\' then ['\\', '\\']
  else if c == '\n' then ['\\', 'n']
  else if c == '\r' then ['\\', 'r']
  else if c == '\t' then ['\\', 't']
  else if c == '\x00' then ['\\', '0']
  else if isPrintable c then [c]
  else numbered c

def inQuotes (s : String) : String := "\"" ++ String.ofList (s.toList.flatMap escapeShown) ++ "\""

end CodeStyle.Text
