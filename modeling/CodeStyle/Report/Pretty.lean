import CodeStyle.Report.Json

/-!
Reports for people to read, with colours or without.
-/

namespace CodeStyle

inductive Style where
  | bold
  | dimmed
  | red
  | green
  | yellow
  | blue
  | cyan
deriving Repr, DecidableEq, Inhabited

/-- The terminal code of a style. -/
def Style.code : Style → String
  | bold => "1"
  | dimmed => "2"
  | red => "31"
  | green => "32"
  | yellow => "33"
  | blue => "34"
  | cyan => "36"

/-- How text is shown. -/
structure Paint where
  colors : Bool
  /-- Whether suppressed findings are listed. -/
  showSuppressed : Bool
deriving Repr, DecidableEq, Inhabited

/-- A text filled up with blanks on its right. -/
def padRight (width : Nat) (text : String) : String :=
  text ++ String.ofList (List.replicate (width - text.length) ' ')

namespace Paint

/-- A text in the given styles. -/
def apply (p : Paint) (styles : List Style) (text : String) : String :=
  if p.colors then "\x1b[" ++ ";".intercalate (styles.map Style.code) ++ "m" ++ text ++ "\x1b[0m"
  else text

def tag (p : Paint) : Severity → String
  | .error => p.apply [.red] "ERROR"
  | .warning => p.apply [.yellow] "WARN "
  | .info => p.apply [.blue] "INFO "

def header (p : Paint) (c : ReportContext) : List String :=
  ["", "  " ++ p.apply [.bold, .cyan] "cstylecheck" ++ " v" ++ version, "",
    "  " ++ p.apply [.dimmed] "Checking: " ++ c.target,
    "  " ++ p.apply [.dimmed] "Config:   " ++ c.config.getD "(defaults)", ""]

def diagnostic (p : Paint) (d : Diagnostic) : List String :=
  let line :=
    "    " ++ p.tag d.severity ++ " "
      ++ p.apply [.dimmed] (padRight 9 (toString d.line ++ ":" ++ toString d.column)) ++ " "
      ++ p.apply [.dimmed] (padRight 34 d.ruleId) ++ d.message
  let fix := d.fix.map fun fix ↦ padRight 28 "" ++ p.apply [.green] ("suggested: " ++ Text.inQuotes fix)
  line :: fix.toList

/-- The findings of a file under its path. -/
def file (p : Paint) (r : FileReport) : List String :=
  let head :=
    "  " ++ p.apply [.bold, .blue] r.path ++ " "
      ++ p.apply [.dimmed] ("(" ++ toString r.diagnostics.length ++ ")")
  head :: r.diagnostics.flatMap p.diagnostic

def suppressed (p : Paint) (s : Suppressed) : List String :=
  let place :=
    if s.suppression.kind == .file then ":* (file)" else ":" ++ toString s.diagnostic.line
  let line :=
    "    " ++ p.apply [.dimmed] (padRight 34 s.diagnostic.ruleId) ++ p.apply [.blue] s.diagnostic.file
      ++ p.apply [.dimmed] place
  let reason := s.suppression.reason.map fun reason ↦
    padRight 12 "" ++ p.apply [.dimmed] ("reason: " ++ Text.inQuotes reason)
  line :: reason.toList

/-- The suppressed findings, or how many there are. -/
def suppressedSummary (p : Paint) (all : List Suppressed) : List String :=
  let head := "  " ++ p.apply [.dimmed] "Suppressed" ++ " (" ++ toString all.length ++ "):"
  if p.showSuppressed then head :: "" :: all.flatMap p.suppressed
  else [head, "    " ++ p.apply [.dimmed] "(use --show-suppressed to see details)"]

def totals (p : Paint) (r : RunReport) : String :=
  let s := r.summary
  "  " ++ toString s.filesAnalyzed ++ " files, " ++ p.apply [.red] (toString s.errors) ++ " errors, "
    ++ p.apply [.yellow] (toString s.warnings) ++ " warnings, " ++ p.apply [.blue] (toString s.infos)
    ++ " infos"
    ++ (if 0 < s.suppressed then
        "  " ++ p.apply [.dimmed] ("(" ++ toString s.suppressed ++ " suppressed)") else "")
    ++ (if r.cancelled then
        "  " ++ p.apply [.yellow] ("(" ++ toString s.filesCancelled ++ " cancelled)") else "")

def verdict (p : Paint) (r : RunReport) (c : ReportContext) : String :=
  "  " ++ p.apply [.dimmed] ("Fail on: " ++ c.failOn.name) ++ "  "
    ++ if c.passed r then p.apply [.green] "✓ PASSED" else p.apply [.red] "✗ FAILED"

def lines (p : Paint) (r : RunReport) (c : ReportContext) : List String :=
  let all := r.files.flatMap (·.suppressed)
  p.header c
    ++ (r.files.filter (!·.isClean)).flatMap (fun f ↦ p.file f ++ [""])
    ++ (if all.isEmpty then [] else p.suppressedSummary all ++ [""])
    ++ [p.totals r, p.verdict r c, ""]

end Paint

/-- The report of a run as text, with a line break after every line. -/
def RunReport.renderText (r : RunReport) (c : ReportContext) (p : Paint) : String :=
  String.join ((p.lines r c).map (· ++ "\n"))

end CodeStyle
