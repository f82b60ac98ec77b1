import CodeStyle.Outline.Conditional
import CodeStyle.Outline.Reader

/-!
Walking a tree. A visit is a node with the nodes above it.
-/

namespace CodeStyle

/-- A node of a tree and its ancestors, nearest first. -/
structure Visit where
  tree : Tree
  above : List Tree
deriving Inhabited

namespace Tree

mutual

/-- The nodes of a tree in the order in which they start. -/
def visits (above : List Tree) : Tree → List Visit
  | node id head children =>
    ⟨node id head children, above⟩ :: visitsAll (node id head children :: above) children

def visitsAll (above : List Tree) : List Tree → List Visit
  | [] => []
  | t :: rest => visits above t ++ visitsAll above rest

end

/-- The nodes under `t`, itself included, in order. -/
def preorder (t : Tree) : List Tree := (t.visits []).map Visit.tree

/-- The number of tokens of a node. -/
def size (t : Tree) : Nat := t.stop - t.start

/-- The first brace block directly under a node. -/
def block (t : Tree) : Option Tree := t.children.find? (·.kind == .braceBlock)

/-- What the comment block `comment` among the children of `t` describes: the next sibling that is
no comment, or `t` itself. -/
def describedBy (t : Tree) (comment : Tree) : Tree :=
  match t.children.dropWhile (·.id != comment.id) with
  | [] => t
  | _ :: later => (later.find? (·.kind != .commentBlock)).getD t

/-- The nearest comment block among the children of `t` that stands by itself and describes
`target`. -/
def commentOn (t : Tree) (target : Tree) : Option Tree :=
  t.children.reverse.find? fun c ↦
    c.kind == .commentBlock && !c.head.trailing && (t.describedBy c).id == target.id

end Tree

namespace Visit

def parent (v : Visit) : Option Tree := v.above.head?

/-- The number of nodes above. -/
def depth (v : Visit) : Nat := v.above.length

/-- What a comment block describes. -/
def commentTarget (v : Visit) : Option Tree :=
  if v.tree.kind == .commentBlock then v.parent.map (·.describedBy v.tree) else none

/-- The nearest comment that describes the node. -/
def leadingComment (v : Visit) : Option Tree := v.parent.bind (·.commentOn v.tree)

def enclosing (v : Visit) (kind : NodeKind) : Option Tree := v.above.find? (·.kind == kind)

end Visit

/-- The first code token among `count` tokens from `start` on. -/
def firstCodeFrom (foci : Array Focus) (start : Nat) : Nat → Option Focus
  | 0 => none
  | count + 1 =>
    match foci[start]? with
    | none => none
    | some f => if f.isCode then some f else firstCodeFrom foci (start + 1) count

/-- The last code token among `count` tokens from `start` on. -/
def lastCodeFrom (foci : Array Focus) (start : Nat) : Nat → Option Focus
  | 0 => none
  | count + 1 =>
    match foci[start + count]? with
    | none => lastCodeFrom foci start count
    | some f => if f.isCode then some f else lastCodeFrom foci start count

namespace Tree

def firstCode (foci : Array Focus) (t : Tree) : Option Focus := firstCodeFrom foci t.start t.size

def lastCode (foci : Array Focus) (t : Tree) : Option Focus := lastCodeFrom foci t.start t.size

/-- The tokens of a node. -/
def foci (all : Array Focus) (t : Tree) : List Focus := (all.extract t.start t.stop).toList

/-- The keyword with which the code of a node starts. -/
def leadKeyword (foci : Array Focus) (t : Tree) : Option String :=
  match t.firstCode foci with
  | none => none
  | some f => if f.token.kind == .keyword then some f.token.text else none

/-- A statement that starts with `if`, `else`, `for`, `while`, `do` or `switch`. -/
def isControl (foci : Array Focus) (t : Tree) : Bool :=
  t.kind == .statement && (t.leadKeyword foci).any Token.controlKeywords.contains

end Tree

end CodeStyle
