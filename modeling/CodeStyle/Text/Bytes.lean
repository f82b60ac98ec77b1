/-!
Classes of bytes that the scanners tell apart.
-/

namespace CodeStyle.Text

/-- The byte of an ASCII character. -/
abbrev byte (c : Char) : UInt8 := c.toNat.toUInt8

/-- The bytes of a text in UTF-8. -/
def bytesOf (s : String) : List UInt8 := s.toUTF8.toList

namespace Byte

def isNewline (b : UInt8) : Bool := b == byte '\n' || b == byte '\r'

/-- Space, tab, vertical tab and form feed. -/
def isBlank (b : UInt8) : Bool := b == byte ' ' || b == byte '\t' || b == 0x0B || b == 0x0C

def isDigit (b : UInt8) : Bool := byte '0' ≤ b && b ≤ byte '9'

def isLower (b : UInt8) : Bool := byte 'a' ≤ b && b ≤ byte 'z'

def isUpper (b : UInt8) : Bool := byte 'A' ≤ b && b ≤ byte 'Z'

def isLetter (b : UInt8) : Bool := isLower b || isUpper b

/-- A byte that may start a word. -/
def startsWord (b : UInt8) : Bool := isLetter b || b == byte '_'

/-- A byte that may continue a word. -/
def isWord (b : UInt8) : Bool := startsWord b || isDigit b

def isQuote (b : UInt8) : Bool := b == byte '"' || b == byte '\''

def isNonAscii (b : UInt8) : Bool := 0x80 ≤ b

/-- Space, tab, line feed, form feed and carriage return. -/
def isSpace (b : UInt8) : Bool :=
  b == byte ' ' || b == byte '\t' || b == byte '\n' || b == 0x0C || b == byte '\r'

end Byte

end CodeStyle.Text
