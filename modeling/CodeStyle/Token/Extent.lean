import CodeStyle.Token.Basic

/-!
How far a token reaches. The scanners look at the first byte of a token and at the bytes after it;
each says of which kind the token is and how many of those further bytes belong to it. A token
therefore never is empty, and no byte is lost, whatever a scanner answers.
-/

namespace CodeStyle.Token

open Text

/-- The kind of a token and the number of its bytes after the first. -/
structure Extent where
  kind : Kind
  more : Nat
  /-- The offset in the token of a continuation backslash that nothing follows. -/
  dangling : Option Nat
deriving Repr, DecidableEq, Inhabited

namespace Extent

def plain (kind : Kind) (more : Nat) : Extent := ⟨kind, more, none⟩

/-- The length of the line break at the head of `bytes`, zero if there is none. -/
def breakLength : List UInt8 → Nat
  | [] => 0
  | b :: rest =>
    if b == byte '\n' then 1
    else if b == byte '\r' then (if rest.head? == some (byte '\n') then 2 else 1)
    else 0

/-- The number of bytes through the first `*/`, if there is one. -/
def commentClose : List UInt8 → Option Nat
  | [] => none
  | b :: rest =>
    if b == byte '*' && rest.head? == some (byte '/') then some 2
    else (commentClose rest).map (· + 1)

def blockComment (rest : List UInt8) : Extent :=
  match commentClose (rest.drop 1) with
  | some n => plain .blockComment (n + 1)
  | none => plain (.invalid .unterminatedComment) rest.length

def lineComment (rest : List UInt8) : Extent :=
  plain .lineComment (rest.takeWhile fun b ↦ !Byte.isNewline b).length

/-- Whether a comment starts at a slash that `rest` follows. -/
def startsComment (rest : List UInt8) : Bool :=
  rest.head? == some (byte '/') || rest.head? == some (byte '*')

/-- The reach of a directive: `taken` bytes after the `#` are read and the first `stop` of them
belong to it. It ends before a line break, a comment outside quotes or trailing blanks; a backslash
carries it over a line break. -/
def directiveReach (quote : Option UInt8) (taken stop : Nat) : List UInt8 → Nat × Option Nat
  | [] => (stop, none)
  | b :: rest =>
    if Byte.isNewline b then (stop, none)
    else if b == byte '\\' then
      match rest with
      | [] => (taken + 1, some taken)
      | c :: rest =>
        if c == byte '\r' && rest.head? == some (byte '\n') then
          match rest with
          | [] => (taken + 2, some taken)
          | [_] => (taken + 3, some taken)
          | _ :: d :: rest => directiveReach quote (taken + 3) (taken + 3) (d :: rest)
        else if Byte.isNewline c then
          match rest with
          | [] => (taken + 2, some taken)
          | d :: rest => directiveReach quote (taken + 2) (taken + 2) (d :: rest)
        else if quote.isSome then directiveReach quote (taken + 2) (taken + 2) rest
        else directiveReach quote (taken + 1) (taken + 1) (c :: rest)
    else if Byte.isQuote b then
      let quote :=
        match quote with
        | none => some b
        | some q => if q == b then none else some q
      directiveReach quote (taken + 1) (taken + 1) rest
    else if b == byte '/' && quote.isNone && startsComment rest then (stop, none)
    else if Byte.isBlank b then directiveReach quote (taken + 1) stop rest
    else directiveReach quote (taken + 1) (taken + 1) rest
termination_by bytes => bytes.length

def directive (rest : List UInt8) : Extent :=
  let (stop, dangling) := directiveReach none 0 0 rest
  ⟨.directive, stop, dangling.map (· + 1)⟩

/-- The reach of a literal after its opening quote, and whether it is closed. A backslash takes
the next byte, or a whole line break, with it. -/
def quotedReach (quote : UInt8) (taken : Nat) : List UInt8 → Nat × Bool
  | [] => (taken, false)
  | b :: rest =>
    if Byte.isNewline b then (taken, false)
    else if b == byte '\\' then
      match rest with
      | [] => (taken + 1, false)
      | c :: rest =>
        if c == byte '\r' && rest.head? == some (byte '\n') then
          match rest with
          | [] => (taken + 2, false)
          | _ :: rest => quotedReach quote (taken + 3) rest
        else quotedReach quote (taken + 2) rest
    else if b == quote then (taken + 1, true)
    else quotedReach quote (taken + 1) rest

/-- A literal whose opening quote is followed by `rest` and preceded by `before` bytes of the same
token. -/
def quoted (quote : UInt8) (before : Nat) (rest : List UInt8) : Extent :=
  let isString := quote == byte '"'
  let (taken, closed) := quotedReach quote 0 rest
  let kind :=
    if closed then (if isString then Kind.stringLiteral else .charLiteral)
    else .invalid (if isString then .unterminatedString else .unterminatedChar)
  plain kind (before + taken)

/-- Whether `b` is an exponent mark of a number. -/
def isExponent (hex : Bool) (b : UInt8) : Bool :=
  if hex then b == byte 'p' || b == byte 'P' else b == byte 'e' || b == byte 'E'

/-- The further bytes of a number after the byte `last`. -/
def numberReach (hex : Bool) (last : UInt8) : List UInt8 → Nat
  | [] => 0
  | b :: rest =>
    let signed := (b == byte '+' || b == byte '-') && isExponent hex last
    if Byte.isWord b || b == byte '.' || signed then numberReach hex b rest + 1 else 0

def number (first : UInt8) (rest : List UInt8) : Extent :=
  let hex := first == byte '0' && (rest.head? == some (byte 'x') || rest.head? == some (byte 'X'))
  let more := numberReach hex first rest
  let digits := first :: rest.take more
  let isFloat := digits.any fun b ↦ b == byte '.' || isExponent hex b
  plain (if isFloat then .floatLiteral else .intLiteral) more

/-- Words that turn a literal right after them into a wide one. -/
def encodingPrefixes : List (List UInt8) := ["L", "u", "U", "u8"].map bytesOf

def keywordBytes : List (List UInt8) := keywords.map bytesOf

def word (first : UInt8) (rest : List UInt8) : Extent :=
  let more := (rest.takeWhile Byte.isWord).length
  let letters := first :: rest.take more
  match rest.drop more with
  | [] => plain (if keywordBytes.contains letters then .keyword else .identifier) more
  | q :: after =>
    if Byte.isQuote q && encodingPrefixes.contains letters then quoted q (more + 1) after
    else plain (if keywordBytes.contains letters then .keyword else .identifier) more

/-- A backslash outside directives and literals is only good before a line break. -/
def backslash (rest : List UInt8) : Extent :=
  match rest.head? with
  | none => plain (.invalid .unterminatedContinuation) 0
  | some b => if Byte.isNewline b then plain .whitespace 0 else plain (.invalid .invalidCharacter) 0

/-- Operators of three, two and one bytes. -/
def operators : List (List UInt8) :=
  ["<<=", ">>=", "...",
    "->", "++", "--", "<<", ">>", "<=", ">=", "==", "!=", "&&", "||", "*=", "/=", "%=", "+=",
    "-=", "&=", "^=", "|=", "##",
    "[", "]", "(", ")", "\x7b", "\x7d", ".", "&", "*", "+", "-", "~", "!", "/", "%", "<", ">", "^", "|",
    "?", ":", ";", "=", ",", "#"].map bytesOf

def punctuation : List (List UInt8) :=
  ["(", ")", "[", "]", "\x7b", "\x7d", ";", ",", "..."].map bytesOf

/-- The first operator of the table, and so the longest, with which the input starts. -/
def punctuator (first : UInt8) (rest : List UInt8) : Extent :=
  match operators.find? (·.isPrefixOf (first :: rest)) with
  | some op => plain (if punctuation.contains op then .punctuation else .operator) (op.length - 1)
  | none => plain (.invalid .invalidCharacter) 0

/-- The extent of the token that starts at `first`; `lineHasCode` says whether a token other than
blanks and comments stands before it on its line. -/
def of (lineHasCode : Bool) (first : UInt8) (rest : List UInt8) : Extent :=
  if first == byte '\n' then plain .newline 0
  else if first == byte '\r' then plain .newline (if rest.head? == some (byte '\n') then 1 else 0)
  else if Byte.isBlank first then plain .whitespace (rest.takeWhile Byte.isBlank).length
  else if first == byte '/' && rest.head? == some (byte '/') then lineComment rest
  else if first == byte '/' && rest.head? == some (byte '*') then blockComment rest
  else if first == byte '#' && !lineHasCode then directive rest
  else if Byte.isQuote first then quoted first 0 rest
  else if Byte.isDigit first || (first == byte '.' && rest.head?.any Byte.isDigit) then number first rest
  else if Byte.startsWord first then word first rest
  else if first == byte '\\' then backslash rest
  else if Byte.isNonAscii first then
    plain (.invalid .nonAscii) (rest.takeWhile Byte.isNonAscii).length
  else punctuator first rest

end Extent

end CodeStyle.Token
