import CodeStyle.Outline.Statement

/-!
Reading the outline of a file from its tokens. Unbalanced delimiters are recorded and never stop
the reader.
-/

namespace CodeStyle

/-- Sibling nodes and the delimiter errors found while reading them. -/
structure Forest where
  nodes : List Outline
  errors : List DelimiterError
deriving Inhabited

namespace Forest

def empty : Forest := ⟨[], []⟩

def append (a b : Forest) : Forest := ⟨a.nodes ++ b.nodes, a.errors ++ b.errors⟩

/-- The block of a brace group with the given content. -/
def block (g : BraceGroup) (content : Forest) : Forest :=
  ⟨[.node (NodeHead.plain .braceBlock g.opening.index (g.opening.index + g.size)) content.nodes],
    g.errors ++ content.errors⟩

/-- The node of an item with the given blocks. -/
def item (first : Focus) (d : ItemDraft) (blocks : Forest) : Forest :=
  let isDirective := first.token.kind == .directive
  let head : NodeHead :=
    { kind := d.kind
      start := first.index
      stop := first.index + d.more + 1
      name := d.name
      directive := if isDirective then some (directiveName first.token.text) else none
      trailing := d.kind == .commentBlock && !first.startsLine
      recovered := false }
  ⟨[.node head blocks.nodes], d.errors ++ blocks.errors⟩

/-- The block that stands for everything from a stray closing brace on. -/
def recovered (first : Focus) (rest : List Focus) (content : Forest) : Forest :=
  let head := NodeHead.plain .braceBlock first.index (first.index + rest.length + 1)
  ⟨[.node { head with recovered := true } content.nodes], content.errors⟩

end Forest

namespace Outline

/-- The nodes of a region `depth` blocks deep. In a file, the first closing brace that opens nothing
makes a recovered block of all that follows; `recovering` says that the region is one. -/
def forest (depth : Nat) (inFunction recovering : Bool) : List Focus → Forest
  | [] => Forest.empty
  | f :: rest =>
    if f.token.isTrivia || f.token.kind.isInvalid then forest depth inFunction recovering rest
    else if f.token.isPunct "\x7d" then
      let stray : Forest := ⟨[], [⟨.unmatchedClose '\x7d', f.token.span⟩]⟩
      if recovering then stray.append (forest depth inFunction true rest)
      else stray.append (Forest.recovered f rest (forest depth inFunction true rest))
    else if f.token.isPunct "\x7b" then
      let g := BraceGroup.of f 0 inFunction rest
      let content :=
        if maxDepth ≤ depth then Forest.empty
        else forest (depth + 1) inFunction false (rest.take g.inside)
      (Forest.block g content).append
        (forest depth inFunction recovering (rest.drop (g.size - 1)))
    else
      let d := ItemDraft.of inFunction f rest
      let blocks := d.groups.map fun g ↦
        Forest.block g <|
          if maxDepth ≤ depth then Forest.empty
          else forest (depth + 1) g.inFunction false ((rest.drop g.skip).take g.inside)
      (Forest.item f d (blocks.foldl Forest.append Forest.empty)).append
        (forest depth inFunction recovering (rest.drop d.more))
termination_by region => region.length

/-- The outline of a whole file and its delimiter errors in order of position. -/
def ofFoci (foci : List Focus) : Outline × List DelimiterError :=
  let f := forest 0 false false foci
  (.node (NodeHead.plain .translationUnit 0 foci.length) f.nodes,
    f.errors.mergeSort fun a b ↦ a.span.startByte ≤ b.span.startByte)

end Outline

end CodeStyle
