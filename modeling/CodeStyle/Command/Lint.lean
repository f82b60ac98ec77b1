import CodeStyle.Command.Basic
import CodeStyle.Command.Output
import CodeStyle.Config.Loading
import CodeStyle.Report.Pretty
import CodeStyle.Report.Sarif

/-!
Checking files and folders and reporting on them.
-/

namespace CodeStyle

inductive ReportFormat where
  | pretty
  | json
  | sarif
deriving Repr, DecidableEq, Inhabited

def ReportFormat.ofName? (name : String) : Option ReportFormat :=
  if name == "pretty" then some pretty
  else if name == "json" then some json
  else if name == "sarif" then some sarif
  else none

namespace Lint

/-- The files to check at a path. A file is always checked; in a folder, those with a checked extension
that are not left out are. -/
def sourcesAt (s : Surroundings) (c : Config) (exclusions : List Glob) (path : String) : List Source :=
  match s.look path with
  | .error _ => []
  | .ok (.file bytes) => [⟨path, bytes⟩]
  | .ok tree =>
    ((tree.files path).filter fun (p, _) ↦
        c.hasCheckedExtension p && !exclusions.any (·.fits p)).map
      fun (p, bytes) ↦ ⟨p, bytes⟩

/-- What is checked, and how. -/
structure Plan where
  format : ReportFormat
  config : Config
  checker : Checker
  sources : List Source
  context : ReportContext

def invalid (e : ConfigError) : CommandOutput := .failure ("Error: invalid configuration: " ++ e.message)

/-- The configuration with what the options say in its place. -/
def configured (o : LintOptions) (c : Config) : Except CommandOutput Config := do
  let c := { c with jobs := o.jobs.getD c.jobs }
  match o.failOn with
  | none => return c
  | some word =>
    match Severity.parse? word with
    | some failOn => return { c with failOn }
    | none => .error (.failure ("Error: " ++ Severity.unknown word))

/-- What the options ask for, or why it cannot be done. -/
def plan (s : Surroundings) (o : LintOptions) : Except CommandOutput Plan := do
  let some format := ReportFormat.ofName? o.format
    | .error (.failure
        ("Error: invalid format " ++ Text.inQuotes o.format ++ ", must be 'pretty', 'json', or 'sarif'"))
  let (config, configPath) ← (Config.load s o.config).mapError invalid
  let config ← configured o config
  if let some path := o.paths.find? (!s.exists? ·) then
    .error (.failure ("Error: cannot access path " ++ Text.inQuotes path))
  let exclusions ← config.exclusions.mapError invalid
  let checker ← (Checker.ofConfig config).mapError invalid
  return {
    format
    config
    checker
    sources := o.paths.flatMap (sourcesAt s config exclusions)
    context := ⟨" ".intercalate o.paths, configPath, config.failOn⟩ }

/-- The folder that paths in a report are relative to: the only one that is checked. -/
def base (s : Surroundings) (o : LintOptions) : String :=
  match o.paths with
  | [path] => if s.isFolder path then path else ""
  | _ => ""

def render (s : Surroundings) (o : LintOptions) (colors : Bool) (t : Plan) (r : RunReport) : String :=
  match t.format with
  | .pretty => r.renderText t.context ⟨colors, o.showSuppressed⟩
  | .json => r.renderJson t.context ++ "\n"
  | .sarif => r.renderSarif (base s o) t.checker.book ++ "\n"

def run (s : Surroundings) (colors : Bool) (o : LintOptions) : CommandOutput :=
  match plan s o with
  | .error output => output
  | .ok t =>
    if t.sources.isEmpty then { exitCode := 0, err := "Warning: no files to check\n" }
    else
      let report := t.checker.run false t.sources
      { exitCode := if t.context.passed report then 0 else 1
        out := render s o colors t report }

end Lint

end CodeStyle
