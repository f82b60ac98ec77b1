import CodeStyle.Text.Bytes

/-!
Reading bytes as UTF-8. Damaged input is not refused: each longest prefix that no continuation
could repair is read as one replacement character.
-/

namespace CodeStyle.Text.Utf8

/-- The bytes that may follow a lead byte: the range of the second byte and how many bytes come
after that one. -/
structure Shape where
  low : UInt8
  high : UInt8
  further : Nat
deriving Repr, DecidableEq

def shape? (lead : UInt8) : Option Shape :=
  if 0xC2 ≤ lead && lead ≤ 0xDF then some ⟨0x80, 0xBF, 0⟩
  else if lead == 0xE0 then some ⟨0xA0, 0xBF, 1⟩
  else if lead == 0xED then some ⟨0x80, 0x9F, 1⟩
  else if 0xE1 ≤ lead && lead ≤ 0xEF then some ⟨0x80, 0xBF, 1⟩
  else if lead == 0xF0 then some ⟨0x90, 0xBF, 2⟩
  else if 0xF1 ≤ lead && lead ≤ 0xF3 then some ⟨0x80, 0xBF, 2⟩
  else if lead == 0xF4 then some ⟨0x80, 0x8F, 2⟩
  else none

def isContinuation (b : UInt8) : Bool := 0x80 ≤ b && b ≤ 0xBF

/-- The length of the longest part of `rest` that continues a lead byte of this shape. -/
def Shape.reach (s : Shape) (rest : List UInt8) : Nat :=
  match rest with
  | [] => 0
  | b :: rest =>
    if s.low ≤ b && b ≤ s.high then 1 + ((rest.take s.further).takeWhile isContinuation).length
    else 0

/-- The value that a lead byte and its continuation bytes spell. -/
def scalar (lead : UInt8) (rest : List UInt8) : Nat :=
  let start :=
    match rest.length with
    | 1 => lead.toNat % 32
    | 2 => lead.toNat % 16
    | _ => lead.toNat % 8
  rest.foldl (fun n b ↦ n * 64 + b.toNat % 64) start

/-- The character at the head of `lead :: rest`, if there is one, and how many bytes of `rest`
belong to it. -/
def next (lead : UInt8) (rest : List UInt8) : Option Char × Nat :=
  if lead < 0x80 then (some (Char.ofNat lead.toNat), 0)
  else
    match shape? lead with
    | none => (none, 0)
    | some s =>
      let reach := s.reach rest
      if reach == s.further + 1 then (some (Char.ofNat (scalar lead (rest.take reach))), reach)
      else (none, reach)

/-- The characters of a byte text; `none` stands for a damaged part. -/
def units : List UInt8 → List (Option Char)
  | [] => []
  | b :: rest => (next b rest).1 :: units (rest.drop (next b rest).2)
termination_by bytes => bytes.length

def replacement : Char := '�'

/-- The text of a byte string, with a replacement character for each damaged part. -/
def lossy (bytes : List UInt8) : String :=
  String.ofList ((units bytes).map fun u ↦ u.getD replacement)

/-- The text of a byte string that has no damaged part. -/
def decode? (bytes : List UInt8) : Option String := ((units bytes).mapM id).map String.ofList

def isValid (bytes : List UInt8) : Bool := (units bytes).all Option.isSome

end CodeStyle.Text.Utf8
