import CodeStyle.Text.Affix

/-!
Paths. Repeated slashes and inner dots do not count, so two texts may be the same path; a leading dot
is a part of its own.
-/

namespace CodeStyle.Path

inductive Part where
  | root
  | here
  | up
  | name (text : String)
deriving Repr, DecidableEq, Inhabited

/-- The texts between the slashes of a path. -/
def segments (path : String) : List String :=
  (Text.splitWhere (· == '/') path.toList).map String.ofList

def join (segments : List String) : String := "/".intercalate segments

/-- Whether a segment adds nothing to a path in the middle of which it stands. -/
def isVoid (segment : String) : Bool := segment.isEmpty || segment == "."

/-- The parts that segments after the first stand for, each with what comes after it. -/
def innerParts : List String → List (Part × List String)
  | [] => []
  | s :: rest =>
    if isVoid s then innerParts rest
    else ((if s == ".." then .up else .name s), rest) :: innerParts rest

/-- The parts of a path, each with the segments after it. -/
def partsWithRest (path : String) : List (Part × List String) :=
  match segments path with
  | [] => []
  | s :: rest =>
    if s.isEmpty && !rest.isEmpty then (.root, rest) :: innerParts rest
    else if s == "." then (.here, rest) :: innerParts rest
    else innerParts (s :: rest)

def parts (path : String) : List Part := (partsWithRest path).map Prod.fst

/-- Whether two texts are one path. -/
def same (a b : String) : Bool := parts a == parts b

/-- The name at the end of a path. -/
def fileName? (path : String) : Option String :=
  match (parts path).getLast? with
  | some (.name s) => some s
  | _ => none

/-- What comes after the last dot of a name, unless the dot comes first. -/
def extensionOf (name : String) : Option String :=
  let afterDot := name.toList.reverse.takeWhile (· != '.')
  let before := name.toList.length - afterDot.length
  if before ≤ 1 then none else some (String.ofList afterDot.reverse)

def extension? (path : String) : Option String := (fileName? path).bind extensionOf

/-- Segments without the void ones at both ends. -/
def trimVoid (segments : List String) : List String :=
  ((segments.dropWhile isVoid).reverse.dropWhile isVoid).reverse

/-- What is left of a path after the parts of `base`, if it starts with them. -/
def dropBase? (path base : String) : Option String :=
  let all := partsWithRest path
  let start := parts base
  if start.isPrefixOf (all.map Prod.fst) then
    match (all.take start.length).getLast? with
    | some (_, rest) => some (join (trimVoid rest))
    | none => some path
  else none

/-- A path under a folder. -/
def under (folder name : String) : String :=
  if Text.startsWith name "/" then name
  else if folder.isEmpty || Text.endsWith folder "/" then folder ++ name
  else folder ++ "/" ++ name

/-- The segments of the folder in which a path lies: all before its last part, without the void ones
at the end. The first segment stays even if it is void. -/
def parentSegments (path : String) : List String :=
  let segs := segments path
  let kept := (segs.reverse.dropWhile isVoid).drop 1
  match kept.reverse with
  | [] => []
  | first :: rest => first :: (rest.reverse.dropWhile isVoid).reverse

end CodeStyle.Path
