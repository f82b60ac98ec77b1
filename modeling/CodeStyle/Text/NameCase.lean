/-!
Words joined by underscores, in small letters or in capitals.
-/

namespace CodeStyle.Text

def isLowerOrDigit (c : Char) : Bool := c.isLower || c.isDigit

def isUpperOrDigit (c : Char) : Bool := c.isUpper || c.isDigit

/-- Whether `cs` goes on a name in small letters: letters and digits, and single underscores each
followed by one of these. -/
def continuesLowerSnake : List Char → Bool
  | [] => true
  | c :: rest =>
    if c == '_' then rest.head?.any isLowerOrDigit && continuesLowerSnake rest
    else isLowerOrDigit c && continuesLowerSnake rest

/-- Words in small letters and digits joined by single underscores, a letter first. -/
def isLowerSnake (name : String) : Bool :=
  match name.toList with
  | [] => false
  | c :: rest => c.isLower && continuesLowerSnake rest

/-- Capitals, digits and underscores, the first that is no underscore being a letter. -/
def isUpperSnake (name : String) : Bool :=
  match name.toList.dropWhile (· == '_') with
  | [] => false
  | c :: rest => c.isUpper && rest.all fun d ↦ isUpperOrDigit d || d == '_'

/-- Whether a word starts at the capital `c` between `before` and `after`. -/
def startsWordAt (before : Option Char) (c : Char) (after : Option Char) : Bool :=
  c.isUpper && before.any fun b ↦ b.isLower || b.isDigit || (b.isUpper && after.any Char.isLower)

/-- The rest of a name in small letters, after the character `before`. Underscores that follow one
another become one. -/
def snakeFrom (before : Option Char) : List Char → List Char
  | [] => []
  | c :: rest =>
    if c == '_' && before == some '_' then snakeFrom before rest
    else
      (if startsWordAt before c rest.head? then ['_', c.toLower] else [c.toLower])
        ++ snakeFrom (some c) rest

def trimUnderscores (cs : List Char) : List Char :=
  ((cs.dropWhile (· == '_')).reverse.dropWhile (· == '_')).reverse

/-- The name with its words in small letters: `myTypeName` becomes `my_type_name`. -/
def toSnake (name : String) : String := String.ofList (trimUnderscores (snakeFrom none name.toList))

/-- The name with its words in capitals. -/
def toUpperSnake (name : String) : String := (toSnake name).map Char.toUpper

end CodeStyle.Text
