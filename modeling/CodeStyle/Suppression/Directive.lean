import CodeStyle.Config.Error
import CodeStyle.Pattern.Reader
import CodeStyle.Source.Basic
import CodeStyle.Text.Affix
import CodeStyle.Token.Focus

/-!
Directives that comments give to the checker, and the syntax by which they are found. In the usual
syntax a directive is a marker and a colon, what is asked for, rule filters and a reason, as in
`marker:ignore-next-line NAMING.* - loop index`.
-/

namespace CodeStyle

/-- What a directive asks for. -/
inductive DirectiveKind where
  /-- Its own line beside code, and the next one otherwise. -/
  | ignore
  | ignoreNextLine
  | ignoreFile
  /-- Opens a range. -/
  | disable
  /-- Closes a range. -/
  | enable
deriving Repr, DecidableEq, Inhabited

namespace DirectiveKind

def all : List DirectiveKind := [ignoreNextLine, ignoreFile, ignore, disable, enable]

def word : DirectiveKind → String
  | ignore => "ignore"
  | ignoreNextLine => "ignore-next-line"
  | ignoreFile => "ignore-file"
  | disable => "disable"
  | enable => "enable"

def ofWord? (s : String) : Option DirectiveKind := all.find? (·.word == s)

end DirectiveKind

structure Directive where
  kind : DirectiveKind
  /-- The rules that are meant; none stands for all. -/
  filters : List String
  reason : Option String
  /-- The line from which the directive applies. -/
  line : Nat
  span : Span
deriving Repr, DecidableEq, Inhabited

/-- How directives are found: by a pattern with a group `directive`, and perhaps groups `rules` and
`reason`. -/
structure DirectiveSyntax where
  pattern : Pattern
deriving Inhabited

namespace DirectiveSyntax

open Pattern

def blank : Pattern := char (.ofRanges [(' ', ' '), ('\t', '\t')])

def blanks : Pattern := star blank true

def filterStart : List (Char × Char) := [('A', 'Z'), ('a', 'z'), ('_', '_'), ('*', '*')]

def filterRest : List (Char × Char) := filterStart ++ [('0', '9'), ('.', '.')]

def filter : Pattern := seq (char (.ofRanges filterStart)) (star (char (.ofRanges filterRest)) true)

/-- Filters between commas. -/
def filters : Pattern := seq filter (star (all [blanks, literal ",", blanks, filter]) true)

/-- Any characters of one line, as few as possible. -/
def anything : Pattern := star (char ⟨[('\n', '\n')], true, false⟩) false

/-- A directive behind `marker` and a colon, which is the last thing on its line. -/
def directivePattern (marker : String) : Pattern :=
  all
    [literal marker, literal ":",
      group "directive" (any (DirectiveKind.all.map fun k ↦ literal k.word)),
      opt (all [plus blank true, group "rules" filters]) true,
      opt (all [plus blank true, literal "-", blanks, group "reason" anything]) true,
      blanks, opt (literal "*/") true, blanks, endOfLine]

/-- The marker of directives where the configuration gives none. -/
def defaultMarker : String := "cstylecheck"

def standard : DirectiveSyntax := ⟨directivePattern defaultMarker⟩

/-- The usual syntax with another marker, which has to be one word. -/
def ofMarker (marker : String) : Except ConfigError DirectiveSyntax :=
  let marker := Text.trim marker
  if marker.isEmpty || marker.toList.any Text.isBlank then
    .error (.invalidValue "suppression.marker"
      (Text.inQuotes marker ++ " must be a single non-empty word"))
  else .ok ⟨directivePattern marker⟩

/-- A syntax of its own, which has to have a group `directive`. -/
def ofPattern (text : String) : Except ConfigError DirectiveSyntax :=
  match Pattern.parse? text with
  | none => .error .malformedPattern
  | some p => if p.groupNames.contains "directive" then .ok ⟨p⟩ else .error .missingGroup

/-- The filters of a list, between commas and blanks. -/
def splitFilters (list : String) : List String :=
  let separates (c : Char) := c == ',' || c == ' ' || c == '\t'
  ((Text.splitWhere separates list.toList).filter (!·.isEmpty)).map String.ofList

def byteLength (cs : List Char) : Nat := (String.ofList cs).utf8ByteSize

/-- Whether code stands before a token on its line. -/
def isBesideCode (f : Focus) : Bool :=
  (f.before.takeWhile (·.kind != .newline)).any fun t ↦ !t.isTrivia && !t.isComment

/-- The directive of a match in a comment, if the match names one. -/
def directive? (source : Source) (comment : Focus) (m : Match) : Option Directive :=
  ((m.group? "directive").bind DirectiveKind.ofWord?).map fun kind ↦
    let first := comment.token.span.startByte + byteLength (comment.token.text.toList.take m.start)
    let span := source.spanFor first (first + byteLength m.text)
    let onNextLine := kind == .ignoreNextLine || (kind == .ignore && !isBesideCode comment)
    { kind
      filters := ((m.group? "rules").map splitFilters).getD []
      reason := ((m.group? "reason").map Text.trim).filter (!·.isEmpty)
      line := if onNextLine then comment.token.span.endLine + 1 else span.startLine
      span }

/-- The directives in the comments of a file, in order. -/
def directives (s : DirectiveSyntax) (source : Source) : List Directive :=
  ((Focus.all source.tokens).filter (·.token.isComment)).flatMap fun f ↦
    (s.pattern.findAll f.token.text.toList).filterMap (directive? source f)

end DirectiveSyntax

end CodeStyle
