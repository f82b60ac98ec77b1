import CodeStyle.Text.Quoted

/-!
What can be wrong with a configuration.
-/

namespace CodeStyle

inductive ConfigError where
  /-- The file cannot be read. -/
  | unreadable (reason : String)
  | malformedYaml
  | malformedJson
  | unknownRule (id : String)
  | invalidSetting (rule value : String)
  /-- The pattern of suppression comments is no pattern. -/
  | malformedPattern
  | missingGroup
  | invalidGlob (pattern reason : String)
  | invalidValue (field reason : String)
deriving Repr, DecidableEq, Inhabited

def ConfigError.message : ConfigError → String
  | unreadable reason => s!"IO error: {reason}"
  | malformedYaml => "YAML parse error: not a table of settings"
  | malformedJson => "JSON parse error: not a table of settings"
  | unknownRule id => "unknown rule id " ++ Text.inQuotes id
  | invalidSetting rule value =>
    "invalid setting " ++ Text.inQuotes value ++ " for rule " ++ rule
      ++ ": expected error, warning, info or off"
  | malformedPattern => "invalid suppression pattern: regex parse error"
  | missingGroup => "invalid suppression pattern: pattern has no named group `directive`"
  | invalidGlob pattern reason =>
    "invalid excluded_paths pattern " ++ Text.inQuotes pattern ++ ": " ++ reason
  | invalidValue field reason => s!"invalid value for {field}: {reason}"

end CodeStyle
