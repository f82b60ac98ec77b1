import CodeStyle.Command.Run

/-!
The command line: reads the files that a command looks at, runs it, and prints what it says.
-/

namespace CodeStyle.Terminal

def faultOfCode (code : UInt32) : FileFault :=
  if code == 17 then .occupied
  else if code == 20 then .notFolder
  else if code == 21 then .isFolder
  else .missing

def faultOf : IO.Error → FileFault
  | .alreadyExists _ code _ => faultOfCode code
  | .inappropriateType _ code _ => faultOfCode code
  | _ => .missing

/-- What lies at a path. Of a folder, what it holds is read only if asked for, and hidden folders in it
are never entered. -/
partial def snapshot (deep : Bool) (path : String) : IO FileTree := do
  let here := (← IO.currentDir) / path
  if !(← here.isDir) then return .file (← IO.FS.readBinFile here).toList
  if !deep then return .folder []
  let entries ← here.readDir
  let inner ← entries.toList.filterMapM fun entry ↦ do
    let under := Path.under path entry.fileName
    if FileTree.isHidden entry.fileName && (← entry.path.isDir) then return none
    return some (entry.fileName, ← snapshot deep under)
  return .folder inner

def lookAt (deep : Bool) (path : String) : IO (Except FileFault FileTree) := do
  try
    return .ok (← snapshot deep path)
  catch e =>
    return .error (faultOf e)

/-- The paths that a command looks at, and whether it looks into folders. -/
def pathsOf : Command → List (String × Bool)
  | .lint o =>
    o.paths.map (·, true) ++ Config.fileNames.map (·, false) ++ o.config.toList.map (·, false)
  | .init o => [(o.output, false)]
  | .rules _ => []

/-- The configuration file of the user, if there is one. -/
def userConfig : IO (Option (String × List UInt8)) := do
  let home := (← IO.getEnv "HOME").map (Path.under · ".config")
  let chosen := (← IO.getEnv "XDG_CONFIG_HOME").filter (Text.startsWith · "/")
  match chosen.or home with
  | none => return none
  | some folder =>
    let path := Path.under folder "cstylecheck/config.yaml"
    match ← lookAt false path with
    | .ok (.file bytes) => return some (path, bytes)
    | _ => return none

def surroundings (c : Command) : IO Surroundings := do
  let seen ← (pathsOf c).mapM fun (path, deep) ↦ return (path, ← lookAt deep path)
  return {
    folder := (← IO.currentDir).toString
    look := fun path ↦ ((seen.find? (·.1 == path)).map Prod.snd).getD (.error .missing)
    userConfig := ← userConfig }

/-- Writes a file after making the folders above it. -/
def store (path text : String) : IO (Except StoreFault Unit) := do
  let folder := Path.join (Path.parentSegments path)
  try
    if !folder.isEmpty then IO.FS.createDirAll folder
  catch e =>
    return .error (.folders (faultOf e))
  try
    IO.FS.writeFile path text
    return .ok ()
  catch e =>
    return .error (.write (faultOf e))

def run (colors : Bool) (c : Command) : IO CommandOutput := do
  let s ← surroundings c
  match c with
  | .lint o => return Lint.run s colors o
  | .rules o => return Rules.run o
  | .init o =>
    match Init.refusal s o with
    | some output => return output
    | none => return Init.report o (← store o.output Config.template)

def helpText : String :=
  "Usage: cstylecheck [-v] <command> [options]\n\n"
    ++ "Commands:\n"
    ++ "  lint [paths] [-c file] [-f format] [--fail-on severity] [--show-suppressed] [-j jobs]\n"
    ++ "  init [-o file] [--force]\n"
    ++ "  rules [-c category]\n"

def explain : Usage → IO Unit
  | .help => IO.print helpText
  | .version => IO.println ("cstylecheck " ++ version)
  | .wrong => IO.eprint helpText

/-- Whether output is coloured: on a terminal, unless the user wants no colours. -/
def wantsColors : IO Bool := do
  return (← (← IO.getStdout).isTty) && (← IO.getEnv "NO_COLOR").isNone

end CodeStyle.Terminal

open CodeStyle in
def main (args : List String) : IO UInt32 := do
  match Command.parse args with
  | .error usage =>
    Terminal.explain usage
    return usage.exitCode.toUInt32
  | .ok command =>
    let output ← Terminal.run (← Terminal.wantsColors) command
    IO.print output.out
    IO.eprint output.err
    return output.exitCode.toUInt32
