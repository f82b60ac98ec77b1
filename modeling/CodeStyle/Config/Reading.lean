import CodeStyle.Config.Basic
import CodeStyle.Json.Reader

/-!
Reading configurations out of structured values. A reading says how values of one format stand for
numbers, texts, lists and tables; JSON is one such format.
-/

namespace CodeStyle

/-- How values of a format are read. -/
structure Reading (α : Type) where
  natural? : α → Option Nat
  flag? : α → Option Bool
  text? : α → Option String
  /-- A text, or nothing said on purpose. -/
  optionalText? : α → Option (Option String)
  severity? : α → Option Severity
  ruleValue? : α → Option RuleValue
  items? : α → Option (List α)
  fields? : α → Option (List (String × α))
  /-- The values of a record that leaves out the names of its fields. -/
  positional? : α → Option (List α)

/-- A field of a record: its name, and how a value changes the record. -/
structure RecordField (α β : Type) where
  name : String
  put : α → β → Option β

namespace Reading

variable {α β : Type}

/-- Puts named values into a record. Unknown names are passed over, and a known one comes once. -/
def putNamed (known : List (RecordField α β)) (seen : List String) (record : β) :
    List (String × α) → Option β
  | [] => some record
  | (name, value) :: rest =>
    match known.find? (·.name == name) with
    | none => putNamed known seen record rest
    | some field =>
      if seen.contains name then none
      else (field.put value record).bind fun record ↦ putNamed known (name :: seen) record rest

/-- Puts values into a record, one for each field in turn. -/
def putInOrder (record : β) : List (RecordField α β) → List α → Option β
  | _, [] => some record
  | [], _ :: _ => none
  | field :: known, value :: rest =>
    (field.put value record).bind fun record ↦ putInOrder record known rest

/-- The record that a value stands for; fields that it leaves out stay as they are in `start`. -/
def record? (r : Reading α) (known : List (RecordField α β)) (start : β) (value : α) : Option β :=
  match r.fields? value with
  | some fields => putNamed known [] start fields
  | none => (r.positional? value).bind (putInOrder start known)

/-- All results, if there is one for each value. -/
def each? (read : α → Option β) : List α → Option (List β)
  | [] => some []
  | v :: rest => do return (← read v) :: (← each? read rest)

def texts? (r : Reading α) (value : α) : Option (List String) := (r.items? value).bind (each? r.text?)

/-- Puts a value under a key into a list that is sorted by keys, in place of an earlier one. -/
def insertSorted (key : String) (value : β) : List (String × β) → List (String × β)
  | [] => [(key, value)]
  | (k, v) :: rest =>
    if key < k then (key, value) :: (k, v) :: rest
    else if key == k then (key, value) :: rest
    else (k, v) :: insertSorted key value rest

def ruleValues? (r : Reading α) (value : α) : Option (List (String × RuleValue)) := do
  let fields ← r.fields? value
  let values ← each? (fun (id, v) ↦ (r.ruleValue? v).map (id, ·)) fields
  return values.foldl (fun sorted (id, v) ↦ insertSorted id v sorted) []

def directiveFields (r : Reading α) : List (RecordField α DirectiveConfig) :=
  [⟨"marker", fun v c ↦ (r.text? v).map fun s ↦ { c with marker := s }⟩,
    ⟨"pattern", fun v c ↦ (r.optionalText? v).map fun s ↦ { c with pattern := s }⟩]

/-- A field for one of the limits. -/
def limitField (r : Reading α) (name : String) (put : Nat → Limits → Limits) :
    RecordField α Config :=
  ⟨name, fun v c ↦ (r.natural? v).map fun n ↦ { c with limits := put n c.limits }⟩

def configFields (r : Reading α) : List (RecordField α Config) :=
  [r.limitField "max_line_length" fun n l ↦ { l with lineLength := n },
    r.limitField "max_nesting_depth" fun n l ↦ { l with nestingDepth := n },
    r.limitField "max_ternary_depth" fun n l ↦ { l with ternaryDepth := n },
    r.limitField "max_function_lines" fun n l ↦ { l with functionLines := n },
    r.limitField "max_file_lines" fun n l ↦ { l with fileLines := n },
    r.limitField "max_blank_lines" fun n l ↦ { l with blankLines := n },
    r.limitField "indent_width" fun n l ↦ { l with indentWidth := n },
    r.limitField "min_variable_length" fun n l ↦ { l with variableLength := n },
    ⟨"rules", fun v c ↦ (r.ruleValues? v).map fun rules ↦ { c with rules }⟩,
    ⟨"suppression", fun v c ↦
      (r.record? r.directiveFields {} v).map fun suppression ↦ { c with suppression }⟩,
    ⟨"extensions", fun v c ↦ (r.texts? v).map fun extensions ↦ { c with extensions }⟩,
    ⟨"excluded_paths", fun v c ↦ (r.texts? v).map fun excludedPaths ↦ { c with excludedPaths }⟩,
    ⟨"fail_on", fun v c ↦ (r.severity? v).map fun failOn ↦ { c with failOn }⟩,
    ⟨"jobs", fun v c ↦ (r.natural? v).map fun jobs ↦ { c with jobs }⟩,
    ⟨"parallel_rules", fun v c ↦ (r.flag? v).map fun parallelRules ↦ { c with parallelRules }⟩]

/-- The configuration that a value stands for. -/
def config? (r : Reading α) (value : α) : Option Config := r.record? r.configFields {} value

/-- Numbers from this one on are too great for a setting. -/
def naturalBound : Nat := 18446744073709551616

end Reading

namespace Json

def asNatural? : Json → Option Nat
  | integer n => if 0 ≤ n && n.toNat < Reading.naturalBound then some n.toNat else none
  | _ => none

def asFlag? : Json → Option Bool
  | bool b => some b
  | _ => none

def asText? : Json → Option String
  | string s => some s
  | _ => none

def asOptionalText? : Json → Option (Option String)
  | null => some none
  | v => (asText? v).map some

/-- A severity by its name, or by a table that has the name and nothing under it. -/
def asSeverity? : Json → Option Severity
  | string s => Severity.ofName? s
  | object [(s, null)] => Severity.ofName? s
  | _ => none

def asRuleValue? : Json → Option RuleValue
  | bool b => some (.enabled b)
  | string s => some (.setting s)
  | _ => none

def asItems? : Json → Option (List Json)
  | array items => some items
  | _ => none

def asFields? : Json → Option (List (String × Json))
  | object fields => some fields
  | _ => none

/-- How settings are read out of JSON. A record may be a list of its values. -/
def reading : Reading Json :=
  { natural? := asNatural?
    flag? := asFlag?
    text? := asText?
    optionalText? := asOptionalText?
    severity? := asSeverity?
    ruleValue? := asRuleValue?
    items? := asItems?
    fields? := asFields?
    positional? := asItems? }

end Json

/-- The configuration that a JSON text holds. -/
def Config.ofJson (text : String) : Except ConfigError Config :=
  match (Json.parse? text).bind Json.reading.config? with
  | some c => .ok c
  | none => .error .malformedJson

end CodeStyle
