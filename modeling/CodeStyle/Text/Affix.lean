/-!
Heads and tails of texts.
-/

namespace CodeStyle.Text

def startsWith (s head : String) : Bool := head.toList.isPrefixOf s.toList

def endsWith (s tail : String) : Bool := tail.toList.isSuffixOf s.toList

/-- `s` without `tail`, if it ends so. -/
def dropTail? (s tail : String) : Option String :=
  if endsWith s tail then some (String.ofList (s.toList.take (s.length - tail.length))) else none

/-- What stands before and after the first `mark` of a text. -/
def splitOnce (mark : Char) (s : String) : Option (String × String) :=
  match s.toList.dropWhile (· != mark) with
  | [] => none
  | _ :: rest => some (String.ofList (s.toList.takeWhile (· != mark)), String.ofList rest)

/-- The parts of a text between the characters that separate them. -/
def splitWhere (separates : Char → Bool) : List Char → List (List Char)
  | [] => [[]]
  | c :: rest =>
    if separates c then [] :: splitWhere separates rest
    else
      match splitWhere separates rest with
      | [] => [[c]]
      | part :: parts => (c :: part) :: parts

end CodeStyle.Text
