import CodeStyle.Checker
import CodeStyle.Glob.Reader
import CodeStyle.Path

/-!
What makes a configuration valid, and which paths it checks.
-/

namespace CodeStyle.Config

/-- The limits that may not be zero, in the order in which they are looked at. -/
def positiveLimits (c : Config) : List (String × Nat) :=
  [("max_line_length", c.limits.lineLength), ("max_nesting_depth", c.limits.nestingDepth),
    ("max_function_lines", c.limits.functionLines), ("max_file_lines", c.limits.fileLines),
    ("indent_width", c.limits.indentWidth)]

def globsOf : List String → Except ConfigError (List Glob)
  | [] => .ok []
  | text :: rest =>
    match Glob.parse text with
    | .error e => .error (.invalidGlob text ("error parsing glob '" ++ text ++ "': " ++ e.reason))
    | .ok g => do return g :: (← globsOf rest)

/-- The globs of the paths that are left out. -/
def exclusions (c : Config) : Except ConfigError (List Glob) := globsOf c.excludedPaths

def validateLimits (c : Config) : Except ConfigError Unit :=
  match c.positiveLimits.find? (·.2 == 0) with
  | some (field, _) => .error (.invalidValue field "must be greater than zero")
  | none => .ok ()

def validateExtensions (c : Config) : Except ConfigError Unit :=
  if c.extensions.isEmpty then
    .error (.invalidValue "extensions" "at least one extension is required")
  else .ok ()

/-- What is wrong with a configuration, if anything is. -/
def validate (c : Config) : Except ConfigError Unit := do
  c.validateLimits
  c.validateExtensions
  let _ ← c.ruleSettings
  let _ ← c.suppression.directiveSyntax
  let _ ← c.exclusions

/-- Whether a path has one of the extensions; the dots in front of them do not count. -/
def hasCheckedExtension (c : Config) (path : String) : Bool :=
  (Path.extension? path).any fun e ↦
    c.extensions.any fun x ↦ x.toList.dropWhile (· == '.') == e.toList

end CodeStyle.Config
