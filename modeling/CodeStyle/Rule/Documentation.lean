import CodeStyle.Rule.Basic

/-!
Rules on the comments at the head of files and functions, and on the order of the parts of a file.
-/

namespace CodeStyle.Rule.Documentation

/-- The first token that is neither blank nor line break. -/
def firstSignificant (r : RuleInput) : Option Focus := r.foci.find? (!·.token.isTrivia)

def fileHeader (r : RuleInput) : Outcome :=
  .found (((firstSignificant r).filter (·.token.kind != .blockComment)).toList.map fun f ↦
    ⟨f.token.span, "file does not start with a block comment header", none⟩)

/-- Whether a comment that is not the header of the file stands before a function and is a block. -/
def isDocumented (foci : Array Focus) (header : Option Nat) (f : FunctionFact) : Bool :=
  f.node.leadingComment.any fun c ↦
    header != some c.start && (c.foci foci).any (·.token.kind == .blockComment)

def functionHeader (r : RuleInput) : Outcome :=
  let header := ((firstSignificant r).filter (·.token.kind == .blockComment)).map Focus.index
  let bare (f : FunctionFact) := !isDocumented r.file.foci header f
  .found ((r.facts.functions.filter bare).map fun f ↦
    ⟨f.name.span, s!"function '{f.name.text}' has no header comment", none⟩)

/-- The parts that come after a part which they have to precede, with the furthest part so far. -/
def misplaced (furthest : Option Section) : List SectionFact → List (SectionFact × Section)
  | [] => []
  | s :: rest =>
    match furthest with
    | none => misplaced (some s.part) rest
    | some seen =>
      if s.part.rank < seen.rank then (s, seen) :: misplaced furthest rest
      else misplaced (some s.part) rest

/-- The token at which a part is reported. -/
def firstToken (foci : Array Focus) (t : Tree) : Option Focus :=
  match t.kind with
  | .directive | .macroDefinition => foci[t.start]?
  | _ => t.firstCode foci

def sectionOrder (r : RuleInput) : Outcome :=
  .found ((misplaced none r.facts.sections).filterMap fun (s, seen) ↦
    (firstToken r.file.foci s.node).map fun f ↦
      ⟨f.token.span, s!"{s.part.title} must come before {seen.title}", none⟩)

def rules : List Rule :=
  [ { id := "DOCUMENTATION.FILE_HEADER", category := .documentation, severity := .warning
      summary := "Files open with a block comment header"
      check := some fileHeader },
    { id := "DOCUMENTATION.FUNCTION_HEADER", category := .documentation, severity := .warning
      summary := "Function definitions are preceded by a block comment"
      check := some functionHeader },
    { id := "DOCUMENTATION.SECTION_ORDER", category := .documentation, severity := .info
      summary := "Includes, macros, types, globals and functions appear in that order"
      check := some sectionOrder } ]

end CodeStyle.Rule.Documentation
