import CodeStyle.Token.Focus

/-!
The outline of a file: a tree over its tokens that knows blocks, statements, declarations,
definitions, directives and comments, and no more of the language than that.
-/

namespace CodeStyle

inductive NodeKind where
  | translationUnit
  | braceBlock
  | statement
  | declaration
  | functionDefinition
  | typeDefinition
  | macroDefinition
  | commentBlock
  /-- A conditional directive through the directive that ends it. -/
  | preprocessorBlock
  /-- Any directive that defines no macro. -/
  | directive
  | label
deriving Repr, DecidableEq, Inhabited

namespace NodeKind

def name : NodeKind → String
  | translationUnit => "TranslationUnit"
  | braceBlock => "BraceBlock"
  | statement => "Statement"
  | declaration => "Declaration"
  | functionDefinition => "FunctionDefinition"
  | typeDefinition => "TypeDefinition"
  | macroDefinition => "MacroDefinition"
  | commentBlock => "CommentBlock"
  | preprocessorBlock => "PreprocessorBlock"
  | directive => "Directive"
  | label => "Label"

def all : List NodeKind :=
  [translationUnit, braceBlock, statement, declaration, functionDefinition, typeDefinition,
    macroDefinition, commentBlock, preprocessorBlock, directive, label]

def ofName? (s : String) : Option NodeKind := all.find? (·.name == s)

end NodeKind

/-- What is wrong with a delimiter. -/
inductive Imbalance where
  /-- A closing delimiter that nothing opened. -/
  | unmatchedClose (found : Char)
  /-- An opening delimiter that nothing closes. -/
  | unclosedOpen (opened : Char)
  /-- A closing delimiter that does not fit the innermost open one. -/
  | mismatchedClose (expected found : Char)
deriving Repr, DecidableEq, Inhabited

def Imbalance.message : Imbalance → String
  | unmatchedClose c => "unmatched closing '" ++ c.toString ++ "'"
  | unclosedOpen c => "unclosed '" ++ c.toString ++ "'"
  | mismatchedClose e c => "expected '" ++ e.toString ++ "' but found '" ++ c.toString ++ "'"

structure DelimiterError where
  imbalance : Imbalance
  span : Span
deriving Repr, DecidableEq, Inhabited

/-- What a node knows of itself: its kind, the indices of its tokens from `start` up to `stop`, and
what depends on the kind. -/
structure NodeHead where
  kind : NodeKind
  start : Nat
  stop : Nat
  /-- The token that names a function or a label. -/
  name : Option Nat
  /-- The word after the `#` of a directive. -/
  directive : Option String
  /-- Whether a comment stands beside something else on its line. -/
  trailing : Bool
  /-- Whether a block stands for what follows a stray closing brace. -/
  recovered : Bool
deriving Repr, DecidableEq, Inhabited

def NodeHead.plain (kind : NodeKind) (start stop : Nat) : NodeHead :=
  ⟨kind, start, stop, none, none, false, false⟩

inductive Outline where
  | node (head : NodeHead) (children : List Outline)
deriving Inhabited

/-- Nesting of blocks and of conditionals beyond this is not followed. -/
def maxDepth : Nat := 256

/-- The name of a directive: `# ifdef FOO` has the name `ifdef`. -/
def directiveName (text : String) : String :=
  let blank (c : Char) : Bool := c == ' ' || c == '\t'
  let word (c : Char) : Bool := c.isAlphanum || c == '_'
  String.ofList (((text.toList.dropWhile (· == '#')).dropWhile blank).takeWhile word)

end CodeStyle
