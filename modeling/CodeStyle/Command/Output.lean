/-!
What commands print.
-/

namespace CodeStyle

/-- What a command prints, and the code with which it ends. -/
structure CommandOutput where
  exitCode : Nat
  out : String := ""
  err : String := ""
deriving Repr, DecidableEq, Inhabited

namespace CommandOutput

/-- The output of a command that went well. -/
def success (out : String) : CommandOutput := { exitCode := 0, out }

/-- The output of a command that could not do its work. -/
def failure (err : String) : CommandOutput := { exitCode := 2, err := err ++ "\n" }

end CommandOutput

end CodeStyle
