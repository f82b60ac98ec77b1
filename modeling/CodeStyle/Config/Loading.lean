import CodeStyle.Config.Validation
import CodeStyle.Config.Yaml
import CodeStyle.Files.Basic

/-!
Finding and reading configuration files.
-/

namespace CodeStyle

/-- What a command sees of the files around it. -/
structure Surroundings where
  /-- The path of the folder in which the command runs. -/
  folder : String
  /-- What lies at a path. -/
  look : String → Except FileFault FileTree
  /-- The configuration file of the user: its path and its bytes. -/
  userConfig : Option (String × List UInt8) := none

namespace Surroundings

/-- A folder with nothing around it. Its own path may stand at the head of the path of a file. -/
def ofTree (folder : String) (tree : FileTree) (userConfig : Option (String × List UInt8)) :
    Surroundings :=
  { folder
    look := fun path ↦
      if Text.startsWith path (folder ++ "/") then
        tree.find (String.ofList (path.toList.drop (folder.length + 1)))
      else if Text.startsWith path "/" then .error .missing
      else tree.find path
    userConfig }

def isFile (s : Surroundings) (path : String) : Bool :=
  match s.look path with
  | .ok (.file _) => true
  | _ => false

def isFolder (s : Surroundings) (path : String) : Bool :=
  match s.look path with
  | .ok (.folder _) => true
  | _ => false

def exists? (s : Surroundings) (path : String) : Bool := s.isFile path || s.isFolder path

def read (s : Surroundings) (path : String) : Except FileFault (List UInt8) := do
  match ← s.look path with
  | .file bytes => .ok bytes
  | .folder _ => .error .isFolder

end Surroundings

namespace Config

/-- The names of configuration files, the first choice first. -/
def fileNames : List String := [".cstylecheck.yaml", "cstylecheck.yaml", "cstylecheck.json"]

/-- Whether a file with this path holds JSON. -/
def isJsonPath (path : String) : Bool :=
  (Path.extension? path).any fun e ↦ e.toList.map Char.toLower == "json".toList

/-- The configuration in a file. -/
def ofFile (path : String) (bytes : List UInt8) : Except ConfigError Config :=
  match Text.Utf8.decode? bytes with
  | none => .error (.unreadable FileFault.notText.reason)
  | some text => if isJsonPath path then ofJson text else ofYaml text

/-- The configuration file in use when none is named: its path, and how it is read. -/
def discover (s : Surroundings) : Option (String × Except FileFault (List UInt8)) :=
  match fileNames.find? s.isFile with
  | some name => some (Path.under s.folder name, s.read name)
  | none => s.userConfig.map fun (path, bytes) ↦ (path, .ok bytes)

/-- The configuration in the named file, in one that is found, or the usual one; with the path of the
file. It is valid. -/
def load (s : Surroundings) (explicit : Option String) : Except ConfigError (Config × Option String) := do
  let file := (explicit.map fun path ↦ (path, s.read path)).or (discover s)
  match file with
  | none =>
    validate {}
    return ({}, none)
  | some (_, .error fault) => .error (.unreadable fault.reason)
  | some (path, .ok bytes) =>
    let config ← ofFile path bytes
    config.validate
    return (config, some path)

end Config

end CodeStyle
