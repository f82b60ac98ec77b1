import CodeStyle.Token.Lexer

/-!
A source file and its line table: where lines start, which place an offset has, and the span of
any stretch of bytes.
-/

namespace CodeStyle

/-- How the bytes of a file decode. -/
inductive Encoding where
  | ascii
  | utf8
  | invalidUtf8
deriving Repr, DecidableEq, Inhabited

namespace Encoding

def detect (bytes : List UInt8) : Encoding :=
  if !bytes.any Text.Byte.isNonAscii then ascii
  else if Text.Utf8.isValid bytes then utf8
  else invalidUtf8

/-- The name in running text. -/
def title : Encoding → String
  | ascii => "ascii"
  | utf8 => "utf-8"
  | invalidUtf8 => "invalid utf-8"

/-- The name in reports. -/
def name : Encoding → String
  | ascii => "ascii"
  | utf8 => "utf8"
  | invalidUtf8 => "invalid_utf8"

end Encoding

structure Source where
  path : String
  bytes : List UInt8
deriving Repr, DecidableEq, Inhabited

namespace Source

open Text

def length (s : Source) : Nat := s.bytes.length

def encoding (s : Source) : Encoding := Encoding.detect s.bytes

/-- The offsets after each line break of `bytes`, the first byte of which has the given offset. -/
def startsAfterBreaks (offset : Nat) : List UInt8 → List Nat
  | [] => []
  | b :: rest =>
    if b == byte '\n' || (b == byte '\r' && rest.head? != some (byte '\n')) then
      (offset + 1) :: startsAfterBreaks (offset + 1) rest
    else startsAfterBreaks (offset + 1) rest

/-- The offsets at which lines start; a line break at the end starts an empty one. -/
def lineStarts (s : Source) : List Nat := 0 :: startsAfterBreaks 0 s.bytes

/-- The number of lines. A line break at the end of the file starts no line. -/
def lineCount (s : Source) : Nat :=
  if s.bytes.isEmpty then 0
  else
    let starts := s.lineStarts
    if starts.getLast? == some s.length then starts.length - 1 else starts.length

/-- The bytes from `start` up to `stop`. -/
def slice (s : Source) (start stop : Nat) : List UInt8 := (s.bytes.drop start).take (stop - start)

/-- `stop` without the byte before it, if that byte is `b` and lies after `start`. -/
def stripByte (s : Source) (b : UInt8) (start stop : Nat) : Nat :=
  if start < stop && s.bytes[stop - 1]? == some b then stop - 1 else stop

/-- The offsets between which line `line` lies, without its line break. Lines count from one. -/
def lineRange? (s : Source) (line : Nat) : Option (Nat × Nat) :=
  match line with
  | 0 => none
  | k + 1 =>
    let starts := s.lineStarts
    starts[k]?.map fun start ↦
      let stop := (starts[k + 1]?).getD s.length
      (start, s.stripByte (byte '\r') start (s.stripByte (byte '\n') start stop))

def lineBytes (s : Source) (line : Nat) : List UInt8 :=
  match s.lineRange? line with
  | some (start, stop) => s.slice start stop
  | none => []

/-- The place of an offset; offsets past the end count as the end. -/
def position (s : Source) (offset : Nat) : Point :=
  let offset := min offset s.length
  let passed := s.lineStarts.takeWhile (· ≤ offset)
  ⟨passed.length, offset - passed.getLastD 0 + 1⟩

/-- The span from `start` up to `stop`, both cut to the file. -/
def spanFor (s : Source) (start stop : Nat) : Span :=
  let stop := min stop s.length
  let start := min start stop
  Span.between start (s.position start) stop (s.position stop)

/-- The span of a line without its line break. -/
def lineSpan? (s : Source) (line : Nat) : Option Span :=
  (s.lineRange? line).map fun (start, stop) ↦ s.spanFor start stop

/-- The empty span at the end of the file. -/
def endSpan (s : Source) : Span := s.spanFor s.length s.length

/-- The bytes of a span, cut to the file. -/
def spanBytes (s : Source) (span : Span) : List UInt8 :=
  let stop := min span.endByte s.length
  s.slice (min span.startByte stop) stop

def tokens (s : Source) : List Token := Token.tokenize s.bytes

def lexErrors (s : Source) : List LexError := Token.lexErrors s.bytes

end Source

end CodeStyle
