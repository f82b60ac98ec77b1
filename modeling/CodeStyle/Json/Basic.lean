/-!
JSON values.
-/

namespace CodeStyle

inductive Json where
  | null
  | bool (value : Bool)
  | integer (value : Int)
  /-- A number with a fraction or an exponent, as written. -/
  | real (text : String)
  | string (value : String)
  | array (items : List Json)
  /-- The fields in the order in which they are written; a name may be repeated. -/
  | object (fields : List (String × Json))
deriving Inhabited

namespace Json

def nat (n : Nat) : Json := integer n

/-- The last field with this name. -/
def field? (name : String) : Json → Option Json
  | object fields => (fields.reverse.find? (·.1 == name)).map Prod.snd
  | _ => none

/-- An object without the fields that have no value. -/
def record (fields : List (String × Option Json)) : Json :=
  object (fields.filterMap fun (name, value) ↦ value.map (name, ·))

def ofOption {α : Type} (f : α → Json) : Option α → Json
  | none => null
  | some a => f a

end Json

end CodeStyle
