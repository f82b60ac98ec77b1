import CodeStyle.Yaml.Basic

/-!
What plain scalars stand for: nothing, a truth value, a number, or else a text.
-/

namespace CodeStyle.Yaml

def isNull (text : String) : Bool := ["", "~", "null", "Null", "NULL"].contains text

def flagOf? (text : String) : Option Bool :=
  if ["true", "True", "TRUE"].contains text then some true
  else if ["false", "False", "FALSE"].contains text then some false
  else none

/-- The number that digits of a base stand for; there is at least one. -/
def digitsOf? (base : Nat) (cs : List Char) : Option Nat :=
  if cs.isEmpty then none
  else
    cs.foldl
      (fun n c ↦ n.bind fun n ↦ (Json.Reader.hexValue? c).bind fun d ↦
        if d < base then some (n * base + d) else none)
      (some 0)

/-- A number written after the mark of its base. -/
def radix? : List Char → Option Nat
  | '0' :: 'x' :: rest => digitsOf? 16 rest
  | '0' :: 'o' :: rest => digitsOf? 8 rest
  | '0' :: 'b' :: rest => digitsOf? 2 rest
  | _ => none

/-- Whether more digits follow a leading zero, which makes them a text. -/
def hasLeadingZero (cs : List Char) : Bool :=
  1 < cs.length && cs.head? == some '0' && cs.all Char.isDigit

/-- A number without its sign. -/
def magnitude? (cs : List Char) : Option Nat :=
  match radix? cs with
  | some n => some n
  | none => if hasLeadingZero cs then none else digitsOf? 10 cs

/-- A number that is not negative; a plus sign may stand before it. -/
def naturalOf? (text : String) : Option Nat :=
  match text.toList with
  | '+' :: cs => magnitude? cs
  | cs => magnitude? cs

/-- The first natural number that rounds to no double. -/
def realBound : Nat := Nat.pow 2 1024 - Nat.pow 2 970

/-- Whether `m * 10 ^ e` is less than the bound on reals. -/
def isFinite (m : Nat) (e : Int) : Bool :=
  let places : Int := (Nat.toDigits 10 m).length + e
  m == 0 || places ≤ 308
    || (places ≤ 309 && m * Nat.pow 10 e.toNat < realBound * Nat.pow 10 (-e).toNat)

/-- The exponent after the digits of a real number, zero if there is none. -/
def exponent? : List Char → Option Int
  | [] => some 0
  | e :: rest =>
    if e == 'e' || e == 'E' then
      match rest with
      | '-' :: ds => (digitsOf? 10 ds).map fun n ↦ -(n : Int)
      | '+' :: ds => (digitsOf? 10 ds).map Int.ofNat
      | ds => (digitsOf? 10 ds).map Int.ofNat
    else none

/-- Whether a text is a decimal number without its sign. -/
def isDecimal (cs : List Char) : Bool :=
  let whole := cs.takeWhile Char.isDigit
  let rest := cs.dropWhile Char.isDigit
  let point := rest.head? == some '.'
  let rest := if point then rest.drop 1 else rest
  let frac := if point then rest.takeWhile Char.isDigit else []
  match digitsOf? 10 (whole ++ frac), exponent? (rest.drop frac.length) with
  | some m, some e => isFinite m (e - frac.length)
  | _, _ => false

def isInfinity (text : String) : Bool := [".inf", ".Inf", ".INF"].contains text

/-- Whether a plain scalar is a number of any kind. -/
def isNumber (text : String) : Bool :=
  let signed := text.toList.head? == some '-' || text.toList.head? == some '+'
  let cs := if signed then text.toList.drop 1 else text.toList
  !hasLeadingZero cs
    && ((radix? cs).any (· < Nat.pow 2 128) || isDecimal cs || isInfinity (String.ofList cs)
      || [".nan", ".NaN", ".NAN"].contains text)

end CodeStyle.Yaml
