import CodeStyle.Analysis
import CodeStyle.Diagnostic

/-!
Rules: what a rule sees of a file, what it finds there, and how its findings become diagnostics.
-/

namespace CodeStyle

/-- The numbers that rules compare with. -/
structure Limits where
  lineLength : Nat := 120
  nestingDepth : Nat := 4
  ternaryDepth : Nat := 1
  functionLines : Nat := 100
  fileLines : Nat := 2000
  blankLines : Nat := 2
  indentWidth : Nat := 4
  variableLength : Nat := 3
deriving Repr, DecidableEq, Inhabited

structure Finding where
  span : Span
  message : String
  fix : Option String := none
deriving Repr, DecidableEq, Inhabited

/-- Why a rule gave up on a file, and where. -/
structure Failure where
  reason : String
  span : Option Span := none
deriving Repr, DecidableEq, Inhabited

/-- What a rule says of a file: what it found, and why it stopped early if it did. -/
structure Outcome where
  findings : List Finding
  failure : Option Failure := none
  /-- Whether the rule cancels the check of the file. -/
  cancels : Bool := false
deriving Repr, DecidableEq, Inhabited

namespace Outcome

def clean : Outcome := ⟨[], none, false⟩

def found (findings : List Finding) : Outcome := ⟨findings, none, false⟩

def failed (reason : String) (span : Option Span := none) : Outcome := ⟨[], some ⟨reason, span⟩, false⟩

/-- `o`, and unless it failed then what `next` says. -/
def andThen (o next : Outcome) : Outcome :=
  if o.failure.isSome then o
  else ⟨o.findings ++ next.findings, next.failure, o.cancels || next.cancels⟩

/-- What `check` says of each item in turn, up to the first failure. -/
def each {α : Type} (items : List α) (check : α → Outcome) : Outcome :=
  match items with
  | [] => clean
  | a :: rest => (check a).andThen (each rest check)

end Outcome

/-- What a rule looks at. -/
structure RuleInput where
  file : Analysis
  limits : Limits
  /-- Whether the run has been cancelled when the rule asks for the given time. -/
  cancelled : Nat → Bool := fun _ ↦ false

namespace RuleInput

def source (r : RuleInput) : Source := r.file.source

def tokens (r : RuleInput) : List Token := r.file.tokens

def foci (r : RuleInput) : List Focus := r.file.foci.toList

def facts (r : RuleInput) : Facts := r.file.facts

/-- What `check` says of the token with this index. -/
def withToken (r : RuleInput) (index : Nat) (check : Focus → Outcome) : Outcome :=
  match r.file.foci[index]? with
  | some f => check f
  | none => .failed "token index out of range"

/-- The items that come before the rule is told to stop, when it asks before each. -/
def untilCancelled {α : Type} (r : RuleInput) (items : List α) : List α :=
  (items.zipIdx.takeWhile fun (_, k) ↦ !r.cancelled k).map Prod.fst

end RuleInput

structure Rule where
  id : String
  category : Category
  severity : Severity
  summary : String
  /-- Absent for what the checker reports by itself. -/
  check : Option (RuleInput → Outcome)
deriving Inhabited

/-- A finding of a rule as a diagnostic of a file of `length` bytes. -/
def Finding.report (f : Finding) (ruleId : String) (category : Category) (severity : Severity)
    (file : String) (length : Nat) : Diagnostic :=
  { ruleId, category, severity, file, span := f.span.clamp length, message := f.message, fix := f.fix }

end CodeStyle
