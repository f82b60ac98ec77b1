import CodeStyle.Text.Bytes

/-!
Places and stretches of a file. Lines and byte columns are counted from one, offsets from zero.
-/

namespace CodeStyle

structure Point where
  line : Nat
  column : Nat
deriving Repr, DecidableEq, Inhabited

namespace Point

/-- The place of the first byte of a file. -/
def first : Point := ⟨1, 1⟩

/-- The place after the byte `b`, when the byte after it is `after`. A carriage return before a
line feed does not end its line. -/
def step (p : Point) (b : UInt8) (after : Option UInt8) : Point :=
  if b == Text.byte '\n' || (b == Text.byte '\r' && after != some (Text.byte '\n')) then ⟨p.line + 1, 1⟩
  else ⟨p.line, p.column + 1⟩

/-- The place after all of `bytes`, when the byte after them is `after`. -/
def walk (p : Point) : List UInt8 → Option UInt8 → Point
  | [], _ => p
  | b :: rest, after => (p.step b (rest.head?.or after)).walk rest after

end Point

structure Span where
  startByte : Nat
  endByte : Nat
  startLine : Nat
  startCol : Nat
  endLine : Nat
  endCol : Nat
deriving Repr, DecidableEq, Inhabited

namespace Span

/-- The span between two places with their offsets. -/
def between (startByte : Nat) (start : Point) (endByte : Nat) (stop : Point) : Span :=
  ⟨startByte, endByte, start.line, start.column, stop.line, stop.column⟩

def length (s : Span) : Nat := s.endByte - s.startByte

def isEmpty (s : Span) : Bool := s.startByte == s.endByte

/-- The empty span at the start of `s`. -/
def startPoint (s : Span) : Span :=
  ⟨s.startByte, s.startByte, s.startLine, s.startCol, s.startLine, s.startCol⟩

/-- The least span from the earlier start to the later end; `s` wins a tie. -/
def join (s t : Span) : Span :=
  let first := if s.startByte ≤ t.startByte then s else t
  let last := if t.endByte ≤ s.endByte then s else t
  ⟨first.startByte, last.endByte, first.startLine, first.startCol, last.endLine, last.endCol⟩

/-- Whether `s` is a stretch of a file of `length` bytes. -/
def within (s : Span) (length : Nat) : Bool := s.startByte ≤ s.endByte && s.endByte ≤ length

/-- `s` with its offsets cut to a file of `length` bytes; lines and columns stay. -/
def clamp (s : Span) (length : Nat) : Span :=
  if s.within length then s
  else
    let stop := min s.endByte length
    { s with startByte := min s.startByte stop, endByte := stop }

def text (s : Span) : String := s!"{s.startLine}:{s.startCol}"

end Span

end CodeStyle
