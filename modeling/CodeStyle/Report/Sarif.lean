import CodeStyle.Path
import CodeStyle.Report.Json

/-!
Reports in SARIF, the interchange format for results of static analysis: what is said of each rule
that has findings, and the findings.
-/

namespace CodeStyle.Sarif

structure RuleInfo where
  id : String
  name : String
  summary : String
  helpUri : String
  level : String
  category : String
deriving Repr, DecidableEq, Inhabited

structure Region where
  startLine : Nat
  startColumn : Nat
  endLine : Nat
  endColumn : Nat
deriving Repr, DecidableEq, Inhabited

structure Result where
  ruleId : String
  level : String
  message : String
  uri : String
  region : Region
deriving Repr, DecidableEq, Inhabited

structure Log where
  rules : List RuleInfo
  results : List Result
deriving Repr, DecidableEq, Inhabited

def toolUri : String := "https://github.com/zen-systems/cstylecheck"

def schemaUri : String :=
  "https://raw.githubusercontent.com/oasis-tcs/sarif-spec/master/Schemata/sarif-schema-2.1.0.json"

def levelOf : Severity → String
  | .error => "error"
  | .warning => "warning"
  | .info => "note"

/-- A word with its first letter upper-case and the others lower-case. -/
def capitalized : List Char → List Char
  | [] => []
  | c :: rest => c.toUpper :: rest.map Char.toLower

/-- The words of a rule id after its first dot, run together. -/
def ruleName (id : String) : String :=
  let tail := ((Text.splitOnce '.' id).map Prod.snd).getD id
  String.ofList ((Text.splitWhere (· == '_') tail.toList).flatMap capitalized)

def helpUriOf (id : String) : String :=
  let anchor := id.toList.map fun c ↦ if c == '.' then '-' else c.toLower
  toolUri ++ "#" ++ String.ofList anchor

def RuleInfo.of (e : RuleEntry) : RuleInfo :=
  { id := e.rule.id
    name := ruleName e.rule.id
    summary := e.rule.summary
    helpUri := helpUriOf e.rule.id
    level := levelOf e.severity
    category := e.rule.category.name }

def withSlashes (path : String) : String :=
  String.ofList (path.toList.map fun c ↦ if c == '\\' then '/' else c)

/-- The path of a file as seen from `base`. The base itself is known by its name. -/
def relativePath (path base : String) : String :=
  if base.isEmpty then path
  else if Path.same path base then (Path.fileName? path).getD path
  else withSlashes ((Path.dropBase? path base).getD path)

/-- The region of a span; lines and columns count from one. -/
def Region.of (s : Span) : Region := ⟨max s.startLine 1, max s.startCol 1, max s.endLine 1, max s.endCol 1⟩

def Result.of (base : String) (d : Diagnostic) : Result :=
  { ruleId := d.ruleId
    level := levelOf d.severity
    message := d.message ++ (d.fix.map fun fix ↦ " (suggested: " ++ Text.inQuotes fix ++ ")").getD ""
    uri := relativePath d.file base
    region := Region.of d.span }

/-- Puts an id into a list that is sorted, unless it is there. -/
def insertId (id : String) : List String → List String
  | [] => [id]
  | x :: rest => if id < x then id :: x :: rest else if id == x then x :: rest else x :: insertId id rest

/-- The ids of findings in increasing order, each once. -/
def sortedIds (ds : List Diagnostic) : List String := ds.foldr (fun d ids ↦ insertId d.ruleId ids) []

/-- The log of a run that was made with the rules of `book`. -/
def Log.of (base : String) (r : RunReport) (book : RuleBook) : Log :=
  { rules := ((sortedIds r.diagnostics).filterMap book.get?).map RuleInfo.of
    results := r.diagnostics.map (Result.of base) }

def textObject (text : String) : Json := .object [("text", .string text)]

def RuleInfo.toJson (r : RuleInfo) : Json :=
  .object
    [("id", .string r.id), ("name", .string r.name), ("shortDescription", textObject r.summary),
      ("helpUri", .string r.helpUri), ("defaultConfiguration", .object [("level", .string r.level)]),
      ("properties", .object [("category", .string r.category)])]

def Region.toJson (r : Region) : Json :=
  .object
    [("startLine", .nat r.startLine), ("startColumn", .nat r.startColumn), ("endLine", .nat r.endLine),
      ("endColumn", .nat r.endColumn)]

def Result.toJson (r : Result) : Json :=
  let location := .object
    [("artifactLocation", .object [("uri", .string r.uri)]), ("region", r.region.toJson)]
  .object
    [("ruleId", .string r.ruleId), ("level", .string r.level), ("message", textObject r.message),
      ("locations", .array [.object [("physicalLocation", location)]])]

def Log.toJson (log : Log) : Json :=
  let driver := .object
    [("name", .string "cstylecheck"), ("version", .string version), ("informationUri", .string toolUri),
      ("rules", .array (log.rules.map RuleInfo.toJson))]
  let run := .object
    [("tool", .object [("driver", driver)]), ("results", .array (log.results.map Result.toJson))]
  .object [("version", .string "2.1.0"), ("$schema", .string schemaUri), ("runs", .array [run])]

end CodeStyle.Sarif

namespace CodeStyle

/-- The report of a run as SARIF text. -/
def RunReport.renderSarif (r : RunReport) (base : String) (book : RuleBook) : String :=
  (Sarif.Log.of base r book).toJson.pretty

end CodeStyle
