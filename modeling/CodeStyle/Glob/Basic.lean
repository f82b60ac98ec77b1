import CodeStyle.Text.Bytes

/-!
Globs, and which paths they fit. A glob fits a path as a whole; its sets and signs stand for bytes,
and a slash is a byte like any other.
-/

namespace CodeStyle

namespace Glob

inductive Part where
  | literal (bytes : List UInt8)
  /-- Any byte. -/
  | one
  /-- Any bytes. -/
  | many
  /-- Nothing, or any bytes up to a slash. -/
  | leading
  /-- A slash and any bytes after it. -/
  | trailing
  /-- A slash, or two with any bytes between them. -/
  | middle
  | set (negated : Bool) (ranges : List (UInt8 × UInt8))
  | oneOf (alternatives : List (List Part))
deriving Repr, Inhabited

/-- A list and all that is left of it when its head is taken off again and again. -/
def tails : List UInt8 → List (List UInt8)
  | [] => [[]]
  | b :: rest => (b :: rest) :: tails rest

/-- What comes after each slash. -/
def afterSlashes : List UInt8 → List (List UInt8)
  | [] => []
  | b :: rest => if b == Text.byte '/' then rest :: afterSlashes rest else afterSlashes rest

def afterSlash? : List UInt8 → Option (List UInt8)
  | [] => none
  | b :: rest => if b == Text.byte '/' then some rest else none

def inSet (negated : Bool) (ranges : List (UInt8 × UInt8)) (b : UInt8) : Bool :=
  ranges.any (fun (low, high) ↦ low ≤ b && b ≤ high) != negated

mutual

/-- Whether a part stands for no text at all. -/
def Part.isVoid : Part → Bool
  | .oneOf alternatives => alternativesVoid alternatives
  | _ => false

def partsVoid : List Part → Bool
  | [] => true
  | p :: rest => p.isVoid && partsVoid rest

def alternativesVoid : List (List Part) → Bool
  | [] => true
  | parts :: rest => partsVoid parts && alternativesVoid rest

end

mutual

/-- Whether a part fits the head of a text and `next` what follows it. Void alternatives do not
count, unless all are. -/
def Part.run : Part → (List UInt8 → Bool) → List UInt8 → Bool
  | .literal bytes, next, s => bytes.isPrefixOf s && next (s.drop bytes.length)
  | .one, next, s =>
    match s with
    | [] => false
    | _ :: rest => next rest
  | .many, next, s => (tails s).any next
  | .leading, next, s => next s || (afterSlashes s).any next
  | .trailing, next, s => (afterSlash? s).any fun rest ↦ (tails rest).any next
  | .middle, next, s => (afterSlash? s).any fun rest ↦ next rest || (afterSlashes rest).any next
  | .set negated ranges, next, s =>
    match s with
    | [] => false
    | b :: rest => inSet negated ranges b && next rest
  | .oneOf alternatives, next, s =>
    if alternativesVoid alternatives then next s else runAny alternatives next s

def runAll : List Part → (List UInt8 → Bool) → List UInt8 → Bool
  | [], next, s => next s
  | p :: rest, next, s => p.run (runAll rest next) s

def runAny : List (List Part) → (List UInt8 → Bool) → List UInt8 → Bool
  | [], _, _ => false
  | parts :: rest, next, s => (!partsVoid parts && runAll parts next s) || runAny rest next s

end

end Glob

structure Glob where
  parts : List Glob.Part
deriving Repr, Inhabited

namespace Glob

def isLiteral : Part → Bool
  | .literal _ => true
  | _ => false

def isByte (c : Char) : Part → Bool
  | .literal bytes => bytes == [Text.byte c]
  | _ => false

def dropMany : List Part → List Part
  | .many :: rest => rest
  | parts => parts

def isMany : Part → Bool
  | .many => true
  | _ => false

/-- Whether a glob asks for a file name that ends in a dot. A path that ends so counts as having no
file name. Globs that are plain texts, or plain texts behind a sign for any bytes, look at the path
and not at the file name. -/
def asksForDottedName (g : Glob) : Bool :=
  g.parts.getLast?.any (isByte '.') &&
    match g.parts with
    | .leading :: rest =>
      if rest.all isLiteral then !rest.any (isByte '/')
      else !(rest.head?.any isMany && 2 < rest.length && (dropMany rest).all isLiteral)
    | parts =>
      if parts.head?.any isMany then !(2 < parts.length && (dropMany parts).all isLiteral)
      else !parts.all isLiteral

/-- Whether the glob fits a path. -/
def fits (g : Glob) (path : String) : Bool :=
  match g.parts with
  | [.leading] => true
  | parts => !g.asksForDottedName && runAll parts List.isEmpty (Text.bytesOf path)

end Glob

end CodeStyle
