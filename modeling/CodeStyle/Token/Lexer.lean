import CodeStyle.Text.Utf8
import CodeStyle.Token.Extent

/-!
Cutting a file into tokens. `lexemes` cuts the bytes, `place` gives each piece its span, and the
errors are those of malformed pieces together with the runs of non-ASCII bytes.
-/

namespace CodeStyle.Token

/-- A piece of a file before it is placed. -/
structure Lexeme where
  kind : Kind
  bytes : List UInt8
  dangling : Option Nat
deriving Repr, DecidableEq, Inhabited

/-- Whether code stands on the line after a token of this kind. -/
def Kind.lineHasCode (kind : Kind) (before : Bool) : Bool :=
  match kind with
  | .newline => false
  | .whitespace | .lineComment | .blockComment => before
  | _ => true

def lexemes (lineHasCode : Bool) : List UInt8 → List Lexeme
  | [] => []
  | b :: rest =>
    let e := Extent.of lineHasCode b rest
    ⟨e.kind, b :: rest.take e.more, e.dangling⟩
      :: lexemes (e.kind.lineHasCode lineHasCode) (rest.drop e.more)
termination_by bytes => bytes.length

/-- The first byte of the next lexeme. -/
def firstByte (lexemes : List Lexeme) : Option UInt8 := lexemes.head?.bind (·.bytes.head?)

/-- The tokens of `lexemes`, the first of which starts at the given offset and place. -/
def place (offset : Nat) (p : Point) : List Lexeme → List Token
  | [] => []
  | l :: rest =>
    let stop := offset + l.bytes.length
    let q := p.walk l.bytes (firstByte rest)
    ⟨l.kind, l.bytes, Text.Utf8.lossy l.bytes, Span.between offset p stop q⟩ :: place stop q rest

/-- The error of an invalid token. Non-ASCII tokens are reported as runs. -/
def Lexeme.fault? (l : Lexeme) : Option Fault :=
  match l.kind with
  | .invalid .nonAscii => none
  | .invalid fault => some fault
  | _ => none

/-- The errors of malformed lexemes and of continuations at the end of the file. -/
def lexemeErrors (offset : Nat) (p : Point) : List Lexeme → List LexError
  | [] => []
  | l :: rest =>
    let stop := offset + l.bytes.length
    let q := p.walk l.bytes (firstByte rest)
    let invalid := l.fault?.map fun fault ↦ ⟨fault, Span.between offset p stop q⟩
    let dangling := l.dangling.map fun k ↦
      let here := p.walk (l.bytes.take k) (some (Text.byte '\\'))
      ⟨.unterminatedContinuation,
        Span.between (offset + k) here (offset + k + 1) ⟨here.line, here.column + 1⟩⟩
    invalid.toList ++ dangling.toList ++ lexemeErrors stop q rest

/-- The maximal runs of non-ASCII bytes, wherever they lie. -/
def nonAsciiRuns (offset : Nat) (p : Point) : List UInt8 → List LexError
  | [] => []
  | b :: rest =>
    if Text.Byte.isNonAscii b then
      let more := (rest.takeWhile Text.Byte.isNonAscii).length
      let q : Point := ⟨p.line, p.column + 1 + more⟩
      ⟨.nonAscii, Span.between offset p (offset + 1 + more) q⟩
        :: nonAsciiRuns (offset + 1 + more) q (rest.drop more)
    else nonAsciiRuns (offset + 1) (p.step b rest.head?) rest
termination_by bytes => bytes.length

/-- The tokens of a file. -/
def tokenize (bytes : List UInt8) : List Token := place 0 Point.first (lexemes false bytes)

/-- The errors of a file, in order of their start. -/
def lexErrors (bytes : List UInt8) : List LexError :=
  (lexemeErrors 0 Point.first (lexemes false bytes) ++ nonAsciiRuns 0 Point.first bytes).mergeSort
    fun a b ↦ a.span.startByte ≤ b.span.startByte

end CodeStyle.Token
