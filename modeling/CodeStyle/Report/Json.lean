import CodeStyle.Json.Writer
import CodeStyle.Report.Basic

/-!
Reports in JSON.
-/

namespace CodeStyle

/-- The version of the checker. -/
def version : String := "0.1.0"

def Span.toJson (s : Span) : Json :=
  .object
    [("start_byte", .nat s.startByte), ("end_byte", .nat s.endByte), ("start_line", .nat s.startLine),
      ("start_col", .nat s.startCol), ("end_line", .nat s.endLine), ("end_col", .nat s.endCol)]

def Diagnostic.toJson (d : Diagnostic) : Json :=
  .record
    [("rule_id", some (.string d.ruleId)), ("category", some (.string d.category.name)),
      ("severity", some (.string d.severity.name)), ("file", some (.string d.file)),
      ("span", some d.span.toJson), ("message", some (.string d.message)), ("fix", d.fix.map .string)]

def Suppression.toJson (s : Suppression) : Json :=
  .record
    [("rules", some (.array (s.filters.map .string))), ("reason", s.reason.map .string),
      ("file", some (.string s.file)), ("first_line", some (.nat s.firstLine)),
      ("last_line", some (.nat s.lastLine)), ("suppression_type", some (.string s.kind.name)),
      ("span", some s.span.toJson)]

def Suppressed.toJson (s : Suppressed) : Json :=
  .object [("diagnostic", s.diagnostic.toJson), ("suppression", s.suppression.toJson)]

def FileReport.toJson (r : FileReport) : Json :=
  .object
    [("path", .string r.path), ("encoding", .string r.encoding.name), ("lines", .nat r.lines),
      ("diagnostics", .array (r.diagnostics.map Diagnostic.toJson)),
      ("suppressed", .array (r.suppressed.map Suppressed.toJson))]

def Summary.toJson (s : Summary) : Json :=
  .object
    [("files_analyzed", .nat s.filesAnalyzed), ("files_cancelled", .nat s.filesCancelled),
      ("errors", .nat s.errors), ("warnings", .nat s.warnings), ("infos", .nat s.infos),
      ("suppressed", .nat s.suppressed), ("elapsed_ms", .nat s.elapsedMs)]

/-- What a report is about besides its findings. -/
structure ReportContext where
  /-- The paths that were checked. -/
  target : String
  /-- The configuration file in use. -/
  config : Option String
  failOn : Severity
deriving Repr, DecidableEq, Inhabited

/-- Whether a run found nothing as grave as the severity with which it fails. -/
def ReportContext.passed (c : ReportContext) (r : RunReport) : Bool := !r.hasFindingsAt c.failOn

def RunReport.toJson (r : RunReport) (c : ReportContext) : Json :=
  .record
    [("version", some (.string version)), ("path", some (.string c.target)),
      ("config", c.config.map .string), ("fail_on", some (.string c.failOn.name)),
      ("passed", some (.bool (c.passed r))), ("cancelled", some (.bool r.cancelled)),
      ("summary", some r.summary.toJson), ("files", some (.array (r.files.map FileReport.toJson)))]

/-- The report of a run as JSON text. -/
def RunReport.renderJson (r : RunReport) (c : ReportContext) : String := (r.toJson c).pretty

end CodeStyle
