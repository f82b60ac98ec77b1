import CodeStyle.Token.Basic

/-!
A token together with the tokens on both sides of it.
-/

namespace CodeStyle

/-- A token of a file, the tokens before it from the nearest to the first, and those after it. -/
structure Focus where
  index : Nat
  before : List Token
  token : Token
  after : List Token
deriving Inhabited

namespace Focus

def fromIndex (index : Nat) (before : List Token) : List Token → List Focus
  | [] => []
  | t :: after => ⟨index, before, t, after⟩ :: fromIndex (index + 1) (t :: before) after

/-- Every token of a file in focus, in order. -/
def all (tokens : List Token) : List Focus := fromIndex 0 [] tokens

def isCode (f : Focus) : Bool := f.token.isCode

/-- The nearest code token before. -/
def previousCode (f : Focus) : Option Token := f.before.find? Token.isCode

/-- The nearest code token after. -/
def nextCode (f : Focus) : Option Token := f.after.find? Token.isCode

def previousCodeIndex (f : Focus) : Option Nat :=
  (f.before.findIdx? Token.isCode).map fun k ↦ f.index - 1 - k

def nextCodeIndex (f : Focus) : Option Nat :=
  (f.after.findIdx? Token.isCode).map fun k ↦ f.index + 1 + k

/-- Whether only blanks stand before the token on its line. -/
def startsLine (f : Focus) : Bool :=
  match f.before.find? (·.kind != .whitespace) with
  | none => true
  | some t => t.kind == .newline

/-- Whether only blanks and comments stand after the token on its line. -/
def endsLine (f : Focus) : Bool :=
  match f.after.find? fun t ↦ t.kind != .whitespace && !t.isComment with
  | none => true
  | some t => t.kind == .newline

end Focus

end CodeStyle
