/-!
White space of any script, and cutting it off the ends of a text.
-/

namespace CodeStyle.Text

/-- The characters that separate words or lines. -/
def isBlank (c : Char) : Bool :=
  let n := c.toNat
  (0x09 ≤ n && n ≤ 0x0D) || n == 0x20 || n == 0x85 || n == 0xA0 || n == 0x1680
    || (0x2000 ≤ n && n ≤ 0x200A) || n == 0x2028 || n == 0x2029 || n == 0x202F || n == 0x205F
    || n == 0x3000

def trimStart (cs : List Char) : List Char := cs.dropWhile isBlank

def trimEnd (cs : List Char) : List Char := (cs.reverse.dropWhile isBlank).reverse

def trim (s : String) : String := String.ofList (trimEnd (trimStart s.toList))

/-- `cs` without all copies of `word` at its head. -/
def dropAllOf (word : List Char) : List Char → List Char
  | [] => []
  | c :: rest =>
    if !word.isEmpty && word.isPrefixOf (c :: rest) then dropAllOf word (rest.drop (word.length - 1))
    else c :: rest
termination_by cs => cs.length

end CodeStyle.Text
