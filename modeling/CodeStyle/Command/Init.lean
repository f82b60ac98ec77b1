import CodeStyle.Command.Basic
import CodeStyle.Command.Output
import CodeStyle.Config.Loading
import CodeStyle.Config.Template
import CodeStyle.Files.Store

/-!
Writing a configuration file to start from.
-/

namespace CodeStyle.Init

/-- Why the file is not written at all, if it is not. -/
def refusal (s : Surroundings) (o : InitOptions) : Option CommandOutput :=
  if s.exists? o.output && !o.force then
    some (.failure ("Error: file already exists: " ++ o.output
      ++ "\nUse --force to overwrite it or --output to choose another path"))
  else none

/-- What is said after writing the file. -/
def report (o : InitOptions) : Except StoreFault Unit → CommandOutput
  | .error (.folders fault) => .failure ("Error: failed to create directory: " ++ fault.reason)
  | .error (.write fault) => .failure ("Error: failed to write configuration: " ++ fault.reason)
  | .ok () =>
    .success ("Created " ++ o.output ++ "\n\nNext steps:\n  1. Edit " ++ o.output
      ++ " to customize for your project\n  2. Run: cstylecheck lint . --config " ++ o.output ++ "\n")

end CodeStyle.Init
