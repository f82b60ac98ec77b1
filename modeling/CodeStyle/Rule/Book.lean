import CodeStyle.Rule.Comments
import CodeStyle.Rule.Documentation
import CodeStyle.Rule.Keywords
import CodeStyle.Rule.Layout
import CodeStyle.Rule.Lexical
import CodeStyle.Rule.Naming
import CodeStyle.Rule.Structure

/-!
The rules of a run: the built-in ones in their order, each with its severity and whether it is on.
-/

namespace CodeStyle

/-- What the checker reports by itself, without looking at tokens. -/
def Rule.engineRules : List Rule :=
  [ { id := "ENGINE.RULE_FAILURE", category := .engine, severity := .error
      summary := "A rule could not evaluate this file"
      check := none },
    { id := "SUPPRESSION.UNTERMINATED", category := .suppression, severity := .warning
      summary := "Suppression range start without a matching end"
      check := none },
    { id := "SUPPRESSION.UNMATCHED_END", category := .suppression, severity := .warning
      summary := "Suppression range end without a matching start"
      check := none },
    { id := "SUPPRESSION.UNKNOWN_RULE", category := .suppression, severity := .warning
      summary := "Suppression directive names a rule that does not exist"
      check := none } ]

/-- All built-in rules. -/
def Rule.builtin : List Rule :=
  Rule.Lexical.rules ++ Rule.Naming.rules ++ Rule.Layout.rules ++ Rule.Structure.rules
    ++ Rule.Comments.rules ++ Rule.Keywords.rules ++ Rule.Documentation.rules ++ Rule.engineRules

/-- What a configuration may say of a rule. -/
inductive RuleSetting where
  | off
  | level (severity : Severity)
deriving Repr, DecidableEq, Inhabited

namespace RuleSetting

def offWords : List String := ["off", "disabled", "disable", "none", "false"]

/-- The setting that a word names in any letter case. -/
def parse? (word : String) : Option RuleSetting :=
  let word := Text.toLower word
  if offWords.contains word then some off else (Severity.parse? word).map level

/-- What is said of a word that names no setting. -/
def unknown (word : String) : String := Severity.unknown (Text.toLower word)

def name : RuleSetting → String
  | off => "off"
  | level s => s.name

end RuleSetting

structure RuleEntry where
  rule : Rule
  severity : Severity
  enabled : Bool
deriving Inhabited

namespace RuleEntry

/-- A rule with the severity that it has by itself. -/
def plain (r : Rule) : RuleEntry := ⟨r, r.severity, true⟩

def apply (e : RuleEntry) : RuleSetting → RuleEntry
  | .off => { e with enabled := false }
  | .level s => { e with enabled := true, severity := s }

/-- A finding of the rule as a diagnostic of a file. -/
def diagnostic (e : RuleEntry) (source : Source) (f : Finding) : Diagnostic :=
  f.report e.rule.id e.rule.category e.severity source.path source.length

end RuleEntry

/-- Whether a filter names a rule: `*` names all, and a text that ends in `*` all that start so. -/
def filterNames (filter ruleId : String) : Bool :=
  if filter == "*" then true
  else
    match Text.dropTail? filter "*" with
    | some head => Text.startsWith ruleId head
    | none => filter == ruleId

structure RuleBook where
  entries : List RuleEntry
deriving Inhabited

namespace RuleBook

def ofRules (rules : List Rule) : RuleBook := ⟨rules.map RuleEntry.plain⟩

def builtin : RuleBook := ofRules Rule.builtin

/-- The last entry with this id. -/
def get? (b : RuleBook) (id : String) : Option RuleEntry := b.entries.reverse.find? (·.rule.id == id)

def contains (b : RuleBook) (id : String) : Bool := (b.get? id).isSome

def isEnabled (b : RuleBook) (id : String) : Bool := (b.get? id).any (·.enabled)

/-- The entry with this id if it is on. -/
def enabled? (b : RuleBook) (id : String) : Option RuleEntry := (b.get? id).filter (·.enabled)

/-- The entries that are on and look at files. -/
def evaluators (b : RuleBook) : List RuleEntry :=
  b.entries.filter fun e ↦ e.enabled && e.rule.check.isSome

def byCategory (b : RuleBook) (c : Category) : List RuleEntry :=
  b.entries.filter (·.rule.category == c)

/-- Whether a filter names a rule of the book. -/
def knowsFilter (b : RuleBook) (filter : String) : Bool :=
  filter == "*" || b.entries.any fun e ↦ filterNames filter e.rule.id

def apply (b : RuleBook) (id : String) (setting : RuleSetting) : RuleBook :=
  ⟨b.entries.map fun e ↦ if e.rule.id == id then e.apply setting else e⟩

def applyAll (b : RuleBook) (settings : List (String × RuleSetting)) : RuleBook :=
  settings.foldl (fun b (id, setting) ↦ b.apply id setting) b

end RuleBook

end CodeStyle
