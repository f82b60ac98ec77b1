import CodeStyle.Config.Reading
import CodeStyle.Text.Blank
import CodeStyle.Yaml.Block
import CodeStyle.Yaml.Scalar

/-!
Configurations written in YAML. A text is asked for by whoever reads it: a scalar may be a number for
one setting and a word for another.
-/

namespace CodeStyle

namespace Yaml

def asNatural? : Yaml → Option Nat
  | plain text => (naturalOf? text).filter (· < Reading.naturalBound)
  | _ => none

def asFlag? : Yaml → Option Bool
  | plain text => flagOf? text
  | _ => none

def asOptionalText? : Yaml → Option (Option String)
  | plain text => some (if isNull text then none else some text)
  | quoted text => some (some text)
  | _ => none

def asRuleValue? : Yaml → Option RuleValue
  | plain text =>
    match flagOf? text with
    | some b => some (.enabled b)
    | none => if isNull text || isNumber text then none else some (.setting text)
  | quoted text => some (.setting text)
  | _ => none

/-- The items of a list; a value that is left out has none. -/
def asItems? : Yaml → Option (List Yaml)
  | sequence items => some items
  | plain "" => some []
  | _ => none

/-- The fields of a table; a value that is left out has none. -/
def asFields? : Yaml → Option (List (String × Yaml))
  | mapping fields => some fields
  | plain "" => some []
  | _ => none

/-- How settings are read out of YAML. -/
def reading : Reading Yaml :=
  { natural? := asNatural?
    flag? := asFlag?
    text? := scalarText?
    optionalText? := asOptionalText?
    severity? := fun v ↦ (scalarText? v).bind Severity.ofName?
    ruleValue? := asRuleValue?
    items? := asItems?
    fields? := asFields?
    positional? := fun _ ↦ none }

end Yaml

/-- The configuration that a YAML text holds; a blank text leaves everything as it is. -/
def Config.ofYaml (text : String) : Except ConfigError Config :=
  if (Text.trim text).isEmpty then .ok {}
  else
    match (Yaml.parse? text).bind Yaml.reading.config? with
    | some c => .ok c
    | none => .error .malformedYaml

end CodeStyle
