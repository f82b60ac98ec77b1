import CodeStyle.Suppression.Basic

/-!
Reports: the findings of a file in their order, and the totals of a run.
-/

namespace CodeStyle

namespace Diagnostic

/-- The order of a report: by place, then rule, then end and message. -/
def order (a b : Diagnostic) : Ordering :=
  (compare a.line b.line).then <| (compare a.column b.column).then <|
    (compare a.ruleId b.ruleId).then <| (compare a.span.endByte b.span.endByte).then <|
      compare a.message b.message

/-- Whether two findings are of one rule and lie at one place. -/
def sameFinding (a b : Diagnostic) : Bool := a.ruleId == b.ruleId && a.span == b.span

/-- Of findings that follow one another and are the same, the first. -/
def dropRepeated : List Diagnostic → List Diagnostic
  | a :: b :: rest =>
    if a.sameFinding b then dropRepeated (a :: rest) else a :: dropRepeated (b :: rest)
  | ds => ds

/-- The findings in the order of a report, each once. -/
def aggregate (ds : List Diagnostic) : List Diagnostic :=
  dropRepeated (ds.mergeSort fun a b ↦ (a.order b).isLE)

end Diagnostic

/-- The order in which suppressed findings are listed. -/
def Suppressed.order (a b : Suppressed) : Ordering :=
  (compare a.diagnostic.line b.diagnostic.line).then <|
    (compare a.diagnostic.column b.diagnostic.column).then <|
      compare a.diagnostic.ruleId b.diagnostic.ruleId

structure FileReport where
  path : String
  encoding : Encoding
  lines : Nat
  diagnostics : List Diagnostic
  suppressed : List Suppressed
deriving Repr, DecidableEq, Inhabited

namespace FileReport

/-- The report of a file with the given findings. -/
def of (path : String) (encoding : Encoding) (lines : Nat) (active : List Diagnostic)
    (suppressed : List Suppressed) : FileReport :=
  { path
    encoding
    lines
    diagnostics := Diagnostic.aggregate active
    suppressed := suppressed.mergeSort fun a b ↦ (a.order b).isLE }

def count (r : FileReport) (s : Severity) : Nat := r.diagnostics.countP (·.severity == s)

def isClean (r : FileReport) : Bool := r.diagnostics.isEmpty

end FileReport

/-- The totals of a run. -/
structure Summary where
  filesAnalyzed : Nat
  filesCancelled : Nat
  errors : Nat
  warnings : Nat
  infos : Nat
  suppressed : Nat
  /-- Zero where no clock is read. -/
  elapsedMs : Nat
deriving Repr, DecidableEq, Inhabited

namespace Summary

/-- The number of findings of a severity. -/
def count (s : Severity) (files : List FileReport) : Nat :=
  (files.flatMap (·.diagnostics)).countP (·.severity == s)

def of (files : List FileReport) (cancelled : Nat) : Summary :=
  { filesAnalyzed := files.length
    filesCancelled := cancelled
    errors := count .error files
    warnings := count .warning files
    infos := count .info files
    suppressed := (files.flatMap (·.suppressed)).length
    elapsedMs := 0 }

def total (s : Summary) : Nat := s.errors + s.warnings + s.infos

/-- The number of findings at least as grave as a threshold. -/
def countAtLeast (s : Summary) : Severity → Nat
  | .error => s.errors
  | .warning => s.errors + s.warnings
  | .info => s.total

end Summary

structure RunReport where
  files : List FileReport
  summary : Summary
  /-- Whether the run was cancelled. -/
  cancelled : Bool
deriving Repr, DecidableEq, Inhabited

namespace RunReport

def diagnostics (r : RunReport) : List Diagnostic := r.files.flatMap (·.diagnostics)

/-- Whether there is a finding at least as grave as a threshold. -/
def hasFindingsAt (r : RunReport) (threshold : Severity) : Bool := 0 < r.summary.countAtLeast threshold

end RunReport

end CodeStyle
