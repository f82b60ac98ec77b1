import CodeStyle.Suppression.Basic

/-!
Configurations: limits, settings of rules, the syntax of directives, which files are checked, and
from which severity on a run fails.
-/

namespace CodeStyle

/-- What a configuration says of a rule. -/
inductive RuleValue where
  | enabled (on : Bool)
  | setting (word : String)
deriving Repr, DecidableEq, Inhabited

/-- How directives are written. -/
structure DirectiveConfig where
  marker : String := DirectiveSyntax.defaultMarker
  /-- A pattern in place of the usual syntax. -/
  pattern : Option String := none
deriving Repr, DecidableEq, Inhabited

def DirectiveConfig.directiveSyntax (c : DirectiveConfig) : Except ConfigError DirectiveSyntax :=
  match c.pattern with
  | some pattern => DirectiveSyntax.ofPattern pattern
  | none => DirectiveSyntax.ofMarker c.marker

structure Config where
  limits : Limits := {}
  /-- The rules that are set, in the order of their ids. -/
  rules : List (String × RuleValue) := []
  suppression : DirectiveConfig := {}
  /-- The file name extensions that are checked. -/
  extensions : List String := ["c", "h"]
  /-- Globs of the paths that are left out. -/
  excludedPaths : List String := []
  /-- The least severity with which a run fails. -/
  failOn : Severity := .warning
  /-- How many files are checked at a time; zero leaves it open. -/
  jobs : Nat := 0
  parallelRules : Bool := false
deriving Repr, DecidableEq, Inhabited

namespace Config

/-- The setting that a value gives to the rule with this id. -/
def settingOf (id : String) (value : RuleValue) : Except ConfigError RuleSetting :=
  match Rule.builtin.find? (·.id == id) with
  | none => .error (.unknownRule id)
  | some rule =>
    match value with
    | .enabled true => .ok (.level rule.severity)
    | .enabled false => .ok .off
    | .setting word =>
      match RuleSetting.parse? word with
      | some setting => .ok setting
      | none => .error (.invalidSetting id word)

/-- The settings of rules, or what is wrong with the first bad one. -/
def settingsOf : List (String × RuleValue) → Except ConfigError (List (String × RuleSetting))
  | [] => .ok []
  | (id, value) :: rest => do
    let setting ← settingOf id value
    return (id, setting) :: (← settingsOf rest)

def ruleSettings (c : Config) : Except ConfigError (List (String × RuleSetting)) := settingsOf c.rules

/-- The built-in rules as the configuration sets them. -/
def ruleBook (c : Config) : Except ConfigError RuleBook :=
  c.ruleSettings.map RuleBook.builtin.applyAll

end Config

end CodeStyle
