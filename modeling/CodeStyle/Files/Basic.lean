import CodeStyle.Path

/-!
Files and folders, and what lies at a path. Every segment of a path is followed in turn, so a path
through something that is missing leads nowhere even if it turns back from there.
-/

namespace CodeStyle

/-- Why a file cannot be read or written. -/
inductive FileFault where
  | missing
  | occupied
  | notFolder
  | isFolder
  | notText
deriving Repr, DecidableEq, Inhabited

def FileFault.reason : FileFault → String
  | missing => "No such file or directory (os error 2)"
  | occupied => "File exists (os error 17)"
  | notFolder => "Not a directory (os error 20)"
  | isFolder => "Is a directory (os error 21)"
  | notText => "stream did not contain valid UTF-8"

inductive FileTree where
  | file (bytes : List UInt8)
  | folder (entries : List (String × FileTree))
deriving Inhabited

namespace FileTree

def isFolder : FileTree → Bool
  | folder _ => true
  | file _ => false

/-- The bytes of a file; a folder has none. -/
def bytes? : FileTree → Option (List UInt8)
  | file bytes => some bytes
  | folder _ => none

def entry? (name : String) : FileTree → Option FileTree
  | folder entries => (entries.find? (·.1 == name)).map Prod.snd
  | file _ => none

/-- What lies at the end of a chain of names. -/
def get? (tree : FileTree) : List String → Option FileTree
  | [] => some tree
  | name :: rest => (tree.entry? name).bind fun inner ↦ get? inner rest

/-- An entry in place of the one of the same name, or after all others. -/
def replaceEntry (name : String) (value : FileTree) (entries : List (String × FileTree)) :
    List (String × FileTree) :=
  if entries.any (·.1 == name) then entries.map fun e ↦ if e.1 == name then (name, value) else e
  else entries ++ [(name, value)]

/-- The tree with `value` at the end of a chain of names; missing folders are made. -/
def put (tree value : FileTree) : List String → FileTree
  | [] => value
  | name :: rest =>
    let inner := put ((tree.entry? name).getD (folder [])) value rest
    match tree with
    | folder entries => folder (replaceEntry name inner entries)
    | file _ => folder [(name, inner)]

/-- The names after one more segment of a path. The folder above the whole tree is the tree. -/
def follow (tree : FileTree) (names : List String) (segment : String) :
    Except FileFault (List String) :=
  match tree.get? names with
  | some (folder entries) =>
    if Path.isVoid segment then .ok names
    else if segment == ".." then .ok names.dropLast
    else if entries.any (·.1 == segment) then .ok (names ++ [segment])
    else .error .missing
  | some (file _) => .error .notFolder
  | none => .error .missing

/-- The names to which the segments of a path lead. -/
def resolve (tree : FileTree) (segments : List String) : Except FileFault (List String) :=
  segments.foldlM tree.follow []

/-- What lies at a path. -/
def find (tree : FileTree) (path : String) : Except FileFault FileTree := do
  let names ← tree.resolve (Path.segments path)
  match tree.get? names with
  | some found => .ok found
  | none => .error .missing

/-- Whether a name is hidden. -/
def isHidden (name : String) : Bool := Text.startsWith name "."

mutual

/-- The files in a tree that lies at a path, by their paths in the order of names. Hidden folders are
passed over. -/
def files (path : String) : FileTree → List (String × List UInt8)
  | file bytes => [(path, bytes)]
  | folder entries => ((entryFiles path entries).mergeSort fun a b ↦ a.1 ≤ b.1).flatMap Prod.snd

/-- The files in each entry of a folder. -/
def entryFiles (path : String) :
    List (String × FileTree) → List (String × List (String × List UInt8))
  | [] => []
  | (name, tree) :: rest =>
    let inner := if tree.isFolder && isHidden name then [] else files (Path.under path name) tree
    (name, inner) :: entryFiles path rest

end

end FileTree

end CodeStyle
