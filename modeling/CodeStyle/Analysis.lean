import CodeStyle.Facts.Basic

/-!
A file with everything that its rules look at.
-/

namespace CodeStyle

structure Analysis where
  source : Source
  tokens : List Token
  foci : Array Focus
  lexErrors : List LexError
  tree : Tree
  delimiterErrors : List DelimiterError
  facts : Facts
deriving Inhabited

namespace Analysis

def of (source : Source) : Analysis :=
  let tokens := source.tokens
  let foci := Focus.all tokens
  let (outline, delimiterErrors) := Outline.ofFoci foci
  let tree := Tree.ofOutline outline
  let foci := foci.toArray
  { source, tokens, foci, lexErrors := source.lexErrors, tree, delimiterErrors
    facts := Facts.of source tokens foci tree }

/-- The nodes of the tree in order, each with the nodes above it. -/
def visits (a : Analysis) : List Visit := a.tree.visits []

def preorder (a : Analysis) : List Tree := a.tree.preorder

/-- Whether the token with this index opens a block, and not an initializer. -/
def opensBlock (a : Analysis) (index : Nat) : Bool :=
  a.preorder.any fun t ↦ t.kind == .braceBlock && !t.head.recovered && t.start == index

end Analysis

end CodeStyle
