import CodeStyle.Config.Basic
import CodeStyle.Report.Basic

/-!
Checking files. A check may be cancelled while it runs: it asks at its start, before each rule, inside
long rules and at its end, and a cancelled check gives no report at all.
-/

namespace CodeStyle

structure Checker where
  book : RuleBook := .builtin
  limits : Limits := {}
  directives : DirectiveSyntax := .standard
  jobs : Nat := 0
  /-- Whether the rules of a file are evaluated side by side. -/
  parallelRules : Bool := false
deriving Inhabited

/-- What a check is told each time it asks whether it has been cancelled. -/
structure Polls where
  start : Bool
  /-- Before the rule with the given number. -/
  before : Nat → Bool
  /-- Inside the rule with the first number, when it asks for the second time. -/
  inside : Nat → Nat → Bool
  finish : Bool

/-- The same answer every time. -/
def Polls.constant (cancelled : Bool) : Polls :=
  ⟨cancelled, fun _ ↦ cancelled, fun _ _ ↦ cancelled, cancelled⟩

namespace Checker

def ofConfig (c : Config) : Except ConfigError Checker := do
  let book ← c.ruleBook
  let directives ← c.suppression.directiveSyntax
  return { book, limits := c.limits, directives, jobs := c.jobs, parallelRules := c.parallelRules }

/-- What is reported when a rule gives up on a file. -/
def failureDiagnostics (c : Checker) (source : Source) (ruleId : String) (f : Failure) :
    List Diagnostic :=
  (c.book.enabled? "ENGINE.RULE_FAILURE").toList.map fun engine ↦
    engine.diagnostic source
      ⟨f.span.getD (source.spanFor 0 0),
        s!"rule {ruleId} could not evaluate this file: {f.reason}", none⟩

/-- What a rule says of a file. -/
def outcome (e : RuleEntry) (input : RuleInput) : Outcome := (e.rule.check.map (· input)).getD .clean

/-- What is reported of the outcome of a rule. -/
def reported (c : Checker) (source : Source) (e : RuleEntry) (o : Outcome) : List Diagnostic :=
  o.findings.map (e.diagnostic source)
    ++ o.failure.toList.flatMap (c.failureDiagnostics source e.rule.id)

/-- The rules that are evaluated, with their numbers. -/
def evaluated (c : Checker) (polls : Polls) : List (RuleEntry × Nat) :=
  let numbered := c.book.evaluators.zipIdx
  if c.parallelRules then numbered else numbered.takeWhile fun (_, k) ↦ !polls.before k

def outcomes (c : Checker) (polls : Polls) (file : Analysis) : List (RuleEntry × Outcome) :=
  (c.evaluated polls).map fun (e, k) ↦
    (e, outcome e { file, limits := c.limits, cancelled := polls.inside k })

/-- The report of a file of which the rules say the given outcomes. -/
def report (c : Checker) (source : Source) (outcomes : List (RuleEntry × Outcome)) : FileReport :=
  let raw := outcomes.flatMap fun (e, o) ↦ c.reported source e o
  let (suppressions, errors) :=
    Suppression.resolve c.book source.path (c.directives.directives source)
  let (active, suppressed) := Suppression.split suppressions raw
  FileReport.of source.path source.encoding source.lineCount
    (active ++ Suppression.diagnostics c.book source.path errors) suppressed

/-- The report of a file, unless the check is cancelled, and whether a rule cancelled it. -/
def checkPolled (c : Checker) (polls : Polls) (source : Source) : Option FileReport × Bool :=
  if polls.start then (none, false)
  else
    let outcomes := c.outcomes polls (Analysis.of source)
    let cancels := outcomes.any (·.2.cancels)
    (if polls.finish || cancels then none else some (c.report source outcomes), cancels)

/-- The report of a file, when the run has been cancelled before or not, and whether it is cancelled
afterwards. -/
def check (c : Checker) (cancelled : Bool) (source : Source) : Option FileReport × Bool :=
  let (r, cancels) := c.checkPolled (.constant cancelled) source
  (r, cancelled || cancels)

/-- The reports of files in their order, and whether the run is cancelled after them. -/
def checkAll (c : Checker) (cancelled : Bool) : List Source → List (Option FileReport) × Bool
  | [] => ([], cancelled)
  | s :: rest =>
    let (r, cancelled) := c.check cancelled s
    let (rs, cancelled) := c.checkAll cancelled rest
    (r :: rs, cancelled)

/-- The report of a run whose files gave these reports; cancelled files gave none. -/
def runReport (reports : List (Option FileReport)) (cancelled : Bool) : RunReport :=
  let files := reports.filterMap id
  ⟨files, Summary.of files (reports.length - files.length), cancelled⟩

/-- The report of a run over files. -/
def run (c : Checker) (cancelled : Bool) (sources : List Source) : RunReport :=
  let (reports, cancelled) := c.checkAll cancelled sources
  runReport reports cancelled

end Checker

end CodeStyle
