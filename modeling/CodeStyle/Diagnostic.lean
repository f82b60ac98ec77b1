import CodeStyle.Span
import CodeStyle.Text.LetterCase

/-!
Findings as they are reported: how severe they are, to which category their rule belongs, and where
they lie.
-/

namespace CodeStyle

inductive Severity where
  | info
  | warning
  | error
deriving Repr, DecidableEq, Inhabited

namespace Severity

/-- All severities, the gravest first. -/
def all : List Severity := [error, warning, info]

def name : Severity → String
  | info => "info"
  | warning => "warning"
  | error => "error"

def rank : Severity → Nat
  | info => 0
  | warning => 1
  | error => 2

/-- Whether `s` is at least as grave as `threshold`. -/
def atLeast (s threshold : Severity) : Bool := threshold.rank ≤ s.rank

/-- The severity with this name, as reports spell it. -/
def ofName? (s : String) : Option Severity := all.find? (·.name == s)

/-- The severity that a word names in any letter case; `warn` is short for `warning`. -/
def parse? (word : String) : Option Severity :=
  let word := Text.toLower word
  if word == "warn" then some warning else ofName? word

/-- What is said of a word that names no severity. -/
def unknown (word : String) : String := s!"unknown severity: {word}"

end Severity

/-- What rules look after. A rule id starts with the mark of its category. -/
inductive Category where
  | lexical
  | encoding
  | naming
  | whitespace
  | structural
  | comments
  | keywords
  | documentation
  | suppression
  | engine
deriving Repr, DecidableEq, Inhabited

namespace Category

def all : List Category :=
  [lexical, encoding, naming, whitespace, structural, comments, keywords, documentation, suppression,
    engine]

def name : Category → String
  | lexical => "lexical"
  | encoding => "encoding"
  | naming => "naming"
  | whitespace => "whitespace"
  | structural => "structure"
  | comments => "comments"
  | keywords => "keywords"
  | documentation => "documentation"
  | suppression => "suppression"
  | engine => "engine"

/-- The part of a rule id before the dot. -/
def mark : Category → String
  | lexical => "LEX"
  | encoding => "ENCODING"
  | naming => "NAMING"
  | whitespace => "WHITESPACE"
  | structural => "STRUCTURE"
  | comments => "COMMENTS"
  | keywords => "KEYWORDS"
  | documentation => "DOCUMENTATION"
  | suppression => "SUPPRESSION"
  | engine => "ENGINE"

/-- The category with this name, or with this mark in any ASCII letter case. -/
def parse? (word : String) : Option Category :=
  all.find? fun c ↦
    c.name == Text.toLower word || c.mark.toList == word.toList.map Char.toUpper

end Category

structure Diagnostic where
  ruleId : String
  category : Category
  severity : Severity
  file : String
  span : Span
  message : String
  /-- What could stand in place of the span. -/
  fix : Option String
deriving Repr, DecidableEq, Inhabited

namespace Diagnostic

def line (d : Diagnostic) : Nat := d.span.startLine

def column (d : Diagnostic) : Nat := d.span.startCol

/-- The text that tells findings of one run apart. -/
def key (d : Diagnostic) : String :=
  s!"{d.ruleId}|{d.file}|{d.span.startByte}|{d.span.endByte}"

end Diagnostic

end CodeStyle
