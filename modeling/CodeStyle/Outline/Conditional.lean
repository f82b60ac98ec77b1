import CodeStyle.Outline.Basic

/-!
Numbered nodes and the grouping of conditional directives. Siblings from an opening directive
through the one that ends it become the members of one new node.
-/

namespace CodeStyle

/-- An outline whose nodes have numbers. -/
inductive Tree where
  | node (id : Nat) (head : NodeHead) (children : List Tree)
deriving Inhabited

namespace Tree

def id : Tree → Nat
  | node id _ _ => id

def head : Tree → NodeHead
  | node _ head _ => head

def children : Tree → List Tree
  | node _ _ children => children

def kind (t : Tree) : NodeKind := t.head.kind

def start (t : Tree) : Nat := t.head.start

def stop (t : Tree) : Nat := t.head.stop

/-- The part a sibling has in conditional groups. -/
inductive Mark where
  | opens
  | closes
  | other
deriving Repr, DecidableEq, Inhabited

def mark (t : Tree) : Mark :=
  if t.kind != .directive then .other
  else
    match t.head.directive with
    | some name =>
      if ["if", "ifdef", "ifndef"].contains name then .opens
      else if name == "endif" then .closes
      else .other
    | none => .other

/-- The node of a conditional with these members. -/
def conditional (id : Nat) (members : List Tree) : Tree :=
  let start := (members.head?.map Tree.start).getD 0
  let stop := (members.getLast?.map Tree.stop).getD 0
  node id (NodeHead.plain .preprocessorBlock start stop) members

/-- Siblings while they are grouped; lists are kept in reverse. -/
structure Grouping where
  done : List Tree
  /-- The members of each open conditional, innermost first. -/
  pending : List (List Tree)
  /-- The number of open conditionals too deep to be grouped. -/
  flat : Nat
  /-- The number of the next new node. -/
  next : Nat
deriving Inhabited

namespace Grouping

/-- Adds a finished sibling to the innermost open conditional, or to the result. -/
def add (g : Grouping) (t : Tree) : Grouping :=
  match g.pending with
  | [] => { g with done := t :: g.done }
  | members :: outer => { g with pending := (t :: members) :: outer }

def step (g : Grouping) (t : Tree) : Grouping :=
  match t.mark with
  | .opens =>
    if g.pending.length < maxDepth then { g with pending := [t] :: g.pending }
    else { g.add t with flat := g.flat + 1 }
  | .closes =>
    if 0 < g.flat then { g.add t with flat := g.flat - 1 }
    else
      match g.pending with
      | [] => g.add t
      | members :: outer =>
        { g with pending := outer, next := g.next + 1 }.add
          (conditional g.next (t :: members).reverse)
  | .other => g.add t

/-- All siblings; those of conditionals that were never closed stand on their own. -/
def siblings (g : Grouping) : List Tree :=
  g.done.reverse ++ (g.pending.reverse.map List.reverse).flatten

end Grouping

/-- Groups siblings, with new nodes numbered from `next` in the order in which they close. -/
def group (next : Nat) (siblings : List Tree) : Grouping :=
  siblings.foldl Grouping.step ⟨[], [], 0, next⟩

mutual

/-- Groups the children of a node, and then those of its descendants, with new nodes numbered from
`next`; also gives the next free number. -/
def regroup (next : Nat) : Tree → Tree × Nat
  | node id head children =>
    let (children', next') := regroupAll (group next children).next children
    (node id head (group next children').siblings, next')

def regroupAll (next : Nat) : List Tree → List Tree × Nat
  | [] => ([], next)
  | t :: rest =>
    let (t', next') := regroup next t
    let (rest', next'') := regroupAll next' rest
    (t' :: rest', next'')

end

mutual

/-- Numbers the nodes of an outline from `next` in the order in which they start; also gives the
next free number. -/
def number (next : Nat) : Outline → Tree × Nat
  | .node head children =>
    let (children', next') := numberAll (next + 1) children
    (node next head children', next')

def numberAll (next : Nat) : List Outline → List Tree × Nat
  | [] => ([], next)
  | o :: rest =>
    let (t, next') := number next o
    let (rest', next'') := numberAll next' rest
    (t :: rest', next'')

end

/-- The tree of an outline: its nodes numbered from the root, conditionals grouped. -/
def ofOutline (o : Outline) : Tree :=
  let (t, next) := number 0 o
  (regroup next t).1

end Tree

end CodeStyle
