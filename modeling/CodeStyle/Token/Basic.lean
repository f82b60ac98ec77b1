import CodeStyle.Span

/-!
Tokens of a C file: their kinds, the word tables, and the faults of malformed pieces.
-/

namespace CodeStyle

/-- What is wrong with a malformed piece of a file. -/
inductive Fault where
  | unterminatedString
  | unterminatedChar
  | unterminatedComment
  | unterminatedContinuation
  | nonAscii
  | invalidCharacter
deriving Repr, DecidableEq, Inhabited

namespace Fault

def name : Fault → String
  | unterminatedString => "unterminated_string"
  | unterminatedChar => "unterminated_char"
  | unterminatedComment => "unterminated_comment"
  | unterminatedContinuation => "unterminated_continuation"
  | nonAscii => "non_ascii"
  | invalidCharacter => "invalid_character"

/-- The id of the rule that reports the fault. -/
def ruleId : Fault → String
  | unterminatedString => "LEX.UNTERMINATED_STRING"
  | unterminatedChar => "LEX.UNTERMINATED_CHAR"
  | unterminatedComment => "LEX.UNTERMINATED_COMMENT"
  | unterminatedContinuation => "LEX.UNTERMINATED_CONTINUATION"
  | nonAscii => "ENCODING.NON_ASCII"
  | invalidCharacter => "LEX.INVALID_CHARACTER"

def message : Fault → String
  | unterminatedString => "unterminated string literal"
  | unterminatedChar => "unterminated character literal"
  | unterminatedComment => "unterminated block comment"
  | unterminatedContinuation => "line continuation at end of file"
  | nonAscii => "non-ASCII bytes in source"
  | invalidCharacter => "invalid character in source"

end Fault

/-- A fault and where it lies. -/
structure LexError where
  fault : Fault
  span : Span
deriving Repr, DecidableEq, Inhabited

def LexError.message (e : LexError) : String := s!"{e.fault.message} at {e.span.text}"

namespace Token

inductive Kind where
  | identifier
  | keyword
  | intLiteral
  | floatLiteral
  | charLiteral
  | stringLiteral
  /-- Operators, among them `.`, `->`, `?` and `:`. -/
  | operator
  /-- Brackets, braces, parentheses, `;`, `,` and `...`. -/
  | punctuation
  | lineComment
  | blockComment
  /-- A whole directive with its continuation lines. -/
  | directive
  | whitespace
  | newline
  | invalid (fault : Fault)
deriving Repr, DecidableEq, Inhabited

namespace Kind

def isTrivia : Kind → Bool
  | whitespace | newline => true
  | _ => false

def isComment : Kind → Bool
  | lineComment | blockComment => true
  | _ => false

def isInvalid : Kind → Bool
  | invalid _ => true
  | _ => false

/-- Kinds that take part in statements. -/
def isCode : Kind → Bool
  | whitespace | newline | lineComment | blockComment | directive | invalid _ => false
  | _ => true

def isLiteral : Kind → Bool
  | intLiteral | floatLiteral | charLiteral | stringLiteral => true
  | _ => false

end Kind

end Token

structure Token where
  kind : Token.Kind
  bytes : List UInt8
  /-- The bytes read as UTF-8, damaged parts replaced. -/
  text : String
  span : Span
deriving Repr, DecidableEq, Inhabited

namespace Token

/-- The keywords of the language. -/
def keywords : List String :=
  ["auto", "break", "case", "char", "const", "continue", "default", "do",
    "double", "else", "enum", "extern", "float", "for", "goto", "if",
    "inline", "int", "long", "register", "restrict", "return", "short",
    "signed", "sizeof", "static", "struct", "switch", "typedef", "union",
    "unsigned", "void", "volatile", "while", "_Bool", "_Complex",
    "_Imaginary", "_Alignas", "_Alignof", "_Atomic", "_Generic",
    "_Noreturn", "_Static_assert", "_Thread_local"]

/-- Keywords that can open a declaration. -/
def declarationKeywords : List String :=
  ["auto", "char", "const", "double", "enum", "extern", "float", "inline",
    "int", "long", "register", "restrict", "short", "signed", "static",
    "struct", "typedef", "union", "unsigned", "void", "volatile", "_Bool",
    "_Complex", "_Imaginary", "_Atomic", "_Noreturn", "_Thread_local"]

/-- Keywords that introduce a statement with a body. -/
def controlKeywords : List String := ["if", "else", "for", "while", "do", "switch"]

/-- Punctuation or an operator with exactly this text. -/
def isPunct (t : Token) (text : String) : Bool :=
  (t.kind == .punctuation || t.kind == .operator) && t.text == text

def isKeyword (t : Token) (word : String) : Bool := t.kind == .keyword && t.text == word

def isIdentifier (t : Token) : Bool := t.kind == .identifier

def isCode (t : Token) : Bool := t.kind.isCode

def isComment (t : Token) : Bool := t.kind.isComment

def isTrivia (t : Token) : Bool := t.kind.isTrivia

def line (t : Token) : Nat := t.span.startLine

/-- A keyword that can open a declaration. -/
def opensDeclaration (t : Token) : Bool := t.kind == .keyword && declarationKeywords.contains t.text

end Token

end CodeStyle
