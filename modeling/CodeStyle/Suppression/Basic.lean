import CodeStyle.Rule.Book
import CodeStyle.Suppression.Directive

/-!
Suppressions: which findings the directives of a file take out of its report, and what is wrong with
the directives themselves.
-/

namespace CodeStyle

inductive SuppressionKind where
  | line
  | nextLine
  | range
  | file
deriving Repr, DecidableEq, Inhabited

namespace SuppressionKind

def all : List SuppressionKind := [line, nextLine, range, file]

def name : SuppressionKind → String
  | line => "line"
  | nextLine => "nextline"
  | range => "range"
  | file => "file"

def ofName? (s : String) : Option SuppressionKind := all.find? (·.name == s)

end SuppressionKind

structure Suppression where
  /-- The rules that are meant; none stands for all. -/
  filters : List String
  reason : Option String
  file : String
  firstLine : Nat
  lastLine : Nat
  kind : SuppressionKind
  /-- Where the directive stands. -/
  span : Span
deriving Repr, DecidableEq, Inhabited

structure Suppressed where
  diagnostic : Diagnostic
  suppression : Suppression
deriving Repr, DecidableEq, Inhabited

inductive SuppressionFault where
  /-- A range that is not closed. -/
  | unterminated
  /-- An end that closes no range. -/
  | unmatchedEnd
  | unknownRule (filter : String)
deriving Repr, DecidableEq, Inhabited

namespace SuppressionFault

/-- The id of the rule that reports the fault. -/
def ruleId : SuppressionFault → String
  | unterminated => "SUPPRESSION.UNTERMINATED"
  | unmatchedEnd => "SUPPRESSION.UNMATCHED_END"
  | unknownRule _ => "SUPPRESSION.UNKNOWN_RULE"

def message : SuppressionFault → String
  | unterminated => "suppression range is never closed; it suppresses nothing"
  | unmatchedEnd => "suppression range end has no matching start"
  | unknownRule filter => "suppression names unknown rule " ++ Text.inQuotes filter

end SuppressionFault

structure SuppressionError where
  fault : SuppressionFault
  span : Span
deriving Repr, DecidableEq, Inhabited

def SuppressionError.message (e : SuppressionError) : String := s!"{e.fault.message} at {e.span.text}"

namespace Suppression

/-- The last line of a suppression that goes to the end of its file. -/
def endOfFile : Nat := 18446744073709551615

/-- Whether two lists name the same filters; order and repetitions do not count. -/
def sameFilters (a b : List String) : Bool := a.all b.contains && b.all a.contains

/-- The suppressions and errors so far, and the ranges that are open, the latest first. -/
structure Progress where
  suppressions : List Suppression
  errors : List SuppressionError
  opened : List Directive
deriving Inhabited

/-- The suppression of one directive for given lines. -/
def ofDirective (file : String) (d : Directive) (kind : SuppressionKind) (first last : Nat) :
    Suppression :=
  ⟨d.filters, d.reason, file, first, last, kind, d.span⟩

/-- The open ranges that the end `d` closes, the earliest first, and those that stay open. -/
def close (d : Directive) (opened : List Directive) : List Directive × List Directive :=
  if d.filters.isEmpty then (opened.reverse, [])
  else
    match opened.find? (sameFilters ·.filters d.filters) with
    | none => ([], opened)
    | some start => ([start], opened.eraseP (sameFilters ·.filters d.filters))

def unknownFilters (book : RuleBook) (d : Directive) : List SuppressionError :=
  (d.filters.filter (!book.knowsFilter ·)).map fun f ↦ ⟨.unknownRule f, d.span⟩

def step (book : RuleBook) (file : String) (p : Progress) (d : Directive) : Progress :=
  let p := { p with errors := p.errors ++ unknownFilters book d }
  let add (s : Suppression) : Progress := { p with suppressions := p.suppressions ++ [s] }
  match d.kind with
  | .ignore =>
    add (ofDirective file d (if d.line == d.span.startLine then .line else .nextLine) d.line d.line)
  | .ignoreNextLine => add (ofDirective file d .nextLine d.line d.line)
  | .ignoreFile => add (ofDirective file d .file 1 endOfFile)
  | .disable => { p with opened := d :: p.opened }
  | .enable =>
    let (closed, opened) := close d p.opened
    { suppressions :=
        p.suppressions ++ closed.map fun start ↦ ofDirective file start .range start.line d.line
      errors := p.errors ++ (if closed.isEmpty then [⟨.unmatchedEnd, d.span⟩] else [])
      opened }

/-- The suppressions that the directives of a file ask for, and what is wrong with them. A range
that is not closed suppresses nothing. -/
def resolve (book : RuleBook) (file : String) (directives : List Directive) :
    List Suppression × List SuppressionError :=
  let p := directives.foldl (step book file) ⟨[], [], []⟩
  let errors := p.errors ++ p.opened.reverse.map fun d ↦ ⟨.unterminated, d.span⟩
  (p.suppressions, errors.mergeSort fun a b ↦ a.span.startByte ≤ b.span.startByte)

/-- Whether a suppression takes out a finding. -/
def covers (s : Suppression) (d : Diagnostic) : Bool :=
  s.file == d.file && (s.filters.isEmpty || s.filters.any (filterNames · d.ruleId))
    && s.firstLine ≤ d.line && d.line ≤ s.lastLine

/-- The findings that stay, and those that are taken out with the first suppression that does so. -/
def split (suppressions : List Suppression) (diagnostics : List Diagnostic) :
    List Diagnostic × List Suppressed :=
  (diagnostics.filter fun d ↦ !suppressions.any (·.covers d),
    diagnostics.filterMap fun d ↦ (suppressions.find? (·.covers d)).map (⟨d, ·⟩))

/-- What is wrong with directives, under the rules that are on. -/
def diagnostics (book : RuleBook) (file : String) (errors : List SuppressionError) :
    List Diagnostic :=
  errors.filterMap fun e ↦
    (book.enabled? e.fault.ruleId).map fun entry ↦
      { ruleId := entry.rule.id
        category := entry.rule.category
        severity := entry.severity
        file
        span := e.span
        message := e.fault.message
        fix := none }

end Suppression

end CodeStyle
