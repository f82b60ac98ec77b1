import CodeStyle.Files.Basic

/-!
Writing files into a tree, with the folders above them.
-/

namespace CodeStyle

/-- What went wrong when a file was stored. -/
inductive StoreFault where
  /-- A folder above the file could not be made. -/
  | folders (fault : FileFault)
  | write (fault : FileFault)
deriving Repr, DecidableEq, Inhabited

namespace FileTree

/-- Makes the folders that a path names, starting from the folder at `names`. -/
def makeFolders (names : List String) (tree : FileTree) : List String → FileTree × Except FileFault Unit
  | [] => (tree, if (tree.get? names).any isFolder then .ok () else .error .occupied)
  | segment :: rest =>
    match tree.follow names segment with
    | .ok next => makeFolders next tree rest
    | .error .missing => makeFolders (names ++ [segment]) (tree.put (folder []) (names ++ [segment])) rest
    | .error fault => (tree, .error fault)

/-- Where a file that is written to a path goes. -/
def target (tree : FileTree) (path : String) : Except FileFault (List String) :=
  let segments := (Path.segments path).reverse
  let named := segments.dropWhile String.isEmpty
  match named with
  | [] => .error .missing
  | last :: above =>
    if last == "." || last == ".." then (tree.resolve segments.reverse).bind fun _ ↦ .error .isFolder
    else do
      let names ← tree.resolve above.reverse
      match tree.get? (names ++ [last]) with
      | some (folder _) => .error .isFolder
      | _ =>
        if !(tree.get? names).any isFolder then .error .notFolder
        else if named.length < segments.length then .error .isFolder
        else .ok (names ++ [last])

/-- Writes a file to a path after making the folders above it. -/
def store (tree : FileTree) (path : String) (bytes : List UInt8) : FileTree × Except StoreFault Unit :=
  match makeFolders [] tree (Path.parentSegments path) with
  | (tree, .error fault) => (tree, .error (.folders fault))
  | (tree, .ok ()) =>
    match tree.target path with
    | .error fault => (tree, .error (.write fault))
    | .ok names => (tree.put (file bytes) names, .ok ())

end FileTree

end CodeStyle
