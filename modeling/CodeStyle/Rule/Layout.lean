import CodeStyle.Rule.Spacing

/-!
Rules on lines, braces and indentation.
-/

namespace CodeStyle.Rule.Layout

open Text

/-- The lines of a file with the offsets between which they lie. -/
def lineRanges (s : Source) : List (Nat × Nat) :=
  (List.range' 1 s.lineCount).filterMap s.lineRange?

def lineLength (r : RuleInput) : Outcome :=
  let limit := r.limits.lineLength
  .found ((lineRanges r.source).filterMap fun (start, stop) ↦
    if limit < stop - start then
      some ⟨r.source.spanFor (start + limit) stop,
        s!"line is {stop - start} characters long, limit is {limit}", none⟩
    else none)

/-- The runs of tabs in `bytes`, as offsets from `offset` on. -/
def tabRuns (offset : Nat) : List UInt8 → List (Nat × Nat)
  | [] => []
  | b :: rest =>
    if b != byte '\t' then tabRuns (offset + 1) rest
    else
      let more := (rest.takeWhile (· == byte '\t')).length
      (offset, offset + 1 + more) :: tabRuns (offset + 1 + more) (rest.drop more)
termination_by bytes => bytes.length

def tab (r : RuleInput) : Outcome :=
  let scanned (t : Token) := t.kind == .whitespace || t.kind == .directive || t.isComment
  .found ((r.tokens.filter scanned).flatMap fun t ↦
    (tabRuns t.span.startByte t.bytes).map fun (start, stop) ↦
      ⟨r.source.spanFor start stop, "tab character; indent and align with spaces", none⟩)

/-- The number of blanks and tabs at the end of `bytes`. -/
def trailingBlanks (bytes : List UInt8) : Nat :=
  (bytes.reverse.takeWhile fun b ↦ b == byte ' ' || b == byte '\t').length

def trailing (r : RuleInput) : Outcome :=
  .found ((lineRanges r.source).filterMap fun (start, stop) ↦
    let count := trailingBlanks (r.source.slice start stop)
    if 0 < count then
      some ⟨r.source.spanFor (stop - count) stop, "trailing whitespace", some ""⟩
    else none)

/-- Whether the block that a token opens closes on the same line with nothing in it. -/
def opensEmptyBlock (f : Focus) : Bool :=
  (f.after.dropWhile (·.kind == .whitespace)).head?.any (·.isPunct "\x7d")

def braceOpenLine (r : RuleInput) : Outcome :=
  .found (r.foci.filterMap fun f ↦
    if !f.token.isPunct "\x7b" || !r.file.opensBlock f.index || opensEmptyBlock f then none
    else if !f.startsLine then some ⟨f.token.span, "opening brace must be on its own line", none⟩
    else if !f.endsLine then
      some ⟨f.token.span, "code follows the opening brace on the same line", none⟩
    else none)

/-- Whether code may follow the closing brace of a block on its line. -/
def mayFollowBlock (v : Visit) (close : Focus) : Bool :=
  let declares := v.parent.any fun p ↦ p.kind == .typeDefinition || p.kind == .declaration
  close.nextCode.any fun t ↦ t.isPunct ";" || t.isPunct "," || t.isKeyword "while" || declares

def braceCloseAt (v : Visit) (opener close : Focus) : List Finding :=
  if !close.token.isPunct "\x7d" || opensEmptyBlock opener then []
  else if !close.startsLine then
    [⟨close.token.span, "closing brace must be on its own line", none⟩]
  else if close.endsLine || mayFollowBlock v close then []
  else [⟨close.token.span, "code follows the closing brace on the same line", none⟩]

def isBlock (t : Tree) : Bool := t.kind == .braceBlock && !t.head.recovered && t.start < t.stop

def braceCloseLine (r : RuleInput) : Outcome :=
  .each ((r.untilCancelled r.file.visits).filter (isBlock ·.tree)) fun v ↦
    r.withToken v.tree.start fun opener ↦
      r.withToken (v.tree.stop - 1) fun close ↦ .found (braceCloseAt v opener close)

/-- The column after leading blanks; a tab goes to the next multiple of `width`. -/
def indentColumns (width : Nat) (blanks : String) : Nat :=
  blanks.toList.foldl (fun column c ↦ if c == '\t' then (column / width + 1) * width else column + 1) 0

/-- The indices of the tokens at which a node has to be indented. -/
def indentedTokens (foci : Array Focus) (t : Tree) : List Nat :=
  match t.kind with
  | .statement | .declaration | .functionDefinition | .typeDefinition =>
    (t.firstCode foci).toList.map Focus.index
  | .commentBlock => if t.head.trailing then [] else [t.start]
  | .braceBlock => if isBlock t then [t.start] else []
  | _ => []

/-- Whether the token closes a block of the file. -/
def closesBlock (blocks : List Tree) (f : Focus) : Bool :=
  f.token.isPunct "\x7d" && blocks.any fun t ↦ t.stop - 1 == f.index

/-- The first of the tokens on each line. -/
def firstOnLines (seen : List Nat) : List Focus → List Focus
  | [] => []
  | f :: rest =>
    if seen.contains f.token.line then firstOnLines seen rest
    else f :: firstOnLines (f.token.line :: seen) rest

def indentationAt (width : Nat) (f : Focus) : Option Finding :=
  (f.before.head?.filter (·.kind == .whitespace)).bind fun blanks ↦
    let columns := indentColumns width blanks.text
    if columns % width != 0 then
      some ⟨blanks.span, s!"indentation of {columns} is not a multiple of {width}", none⟩
    else none

def indentation (r : RuleInput) : Outcome :=
  let width := r.limits.indentWidth
  let nodes := r.file.preorder
  let starts := nodes.flatMap (indentedTokens r.file.foci)
  let blocks := nodes.filter isBlock
  let indented (f : Focus) :=
    f.index != 0 && f.startsLine && (starts.contains f.index || closesBlock blocks f)
  if width == 0 then .clean
  else .found ((firstOnLines [] (r.foci.filter indented)).filterMap (indentationAt width))

/-- The numbers of the lines with which a run of blank lines grows longer than `limit`, after `run`
blank lines. -/
def longBlankRuns (limit run : Nat) : List LineFact → List Nat
  | [] => []
  | l :: rest =>
    if !l.isBlank then longBlankRuns limit 0 rest
    else if run == limit then l.number :: longBlankRuns limit (run + 1) rest
    else longBlankRuns limit (run + 1) rest

def blankLines (r : RuleInput) : Outcome :=
  let limit := r.limits.blankLines
  .found ((longBlankRuns limit 0 r.facts.lines).filterMap fun number ↦
    (r.source.lineSpan? number).map fun span ↦
      ⟨span, s!"more than {limit} consecutive blank lines", none⟩)

def finalNewline (r : RuleInput) : Outcome :=
  if r.source.bytes.getLast?.all Byte.isNewline then .clean
  else .found [⟨r.source.endSpan, "file does not end with a line break", some "\n"⟩]

/-- How a line ends. -/
inductive LineEnding where
  | lf
  | crlf
  | cr
deriving Repr, DecidableEq, Inhabited

namespace LineEnding

def name : LineEnding → String
  | lf => "LF"
  | crlf => "CRLF"
  | cr => "CR"

def length : LineEnding → Nat
  | crlf => 2
  | _ => 1

end LineEnding

/-- The line endings of `bytes`, with their offsets from `offset` on. -/
def lineEndings (offset : Nat) : List UInt8 → List (Nat × LineEnding)
  | [] => []
  | [b] =>
    if b == byte '\n' then [(offset, .lf)] else if b == byte '\r' then [(offset, .cr)] else []
  | b :: c :: rest =>
    if b == byte '\n' then (offset, .lf) :: lineEndings (offset + 1) (c :: rest)
    else if b == byte '\r' then
      if c == byte '\n' then (offset, .crlf) :: lineEndings (offset + 2) rest
      else (offset, .cr) :: lineEndings (offset + 1) (c :: rest)
    else lineEndings (offset + 1) (c :: rest)

/-- What is wrong with a line ending in a file whose first proper one is `expected`. -/
def lineEndingProblem (expected : Option LineEnding) (e : LineEnding) : Option String :=
  if e == .cr then some "bare CR line ending"
  else
    (expected.filter (· != e)).map fun first ↦
      s!"{e.name} line ending in a file that uses {first.name}"

def lineEnding (r : RuleInput) : Outcome :=
  let endings := lineEndings 0 r.source.bytes
  let expected := (endings.map Prod.snd).find? (· != .cr)
  .found (endings.filterMap fun (offset, e) ↦
    (lineEndingProblem expected e).map fun message ↦
      ⟨r.source.spanFor offset (offset + e.length), message, none⟩)

def rules : List Rule :=
  [ { id := "WHITESPACE.LINE_LENGTH", category := .whitespace, severity := .warning
      summary := "Lines stay within the configured length"
      check := some lineLength },
    { id := "WHITESPACE.TAB", category := .whitespace, severity := .warning
      summary := "Tabs are not used for layout"
      check := some tab },
    { id := "WHITESPACE.TRAILING", category := .whitespace, severity := .warning
      summary := "No trailing whitespace"
      check := some trailing },
    { id := "WHITESPACE.MULTIPLE_SPACES", category := .whitespace, severity := .warning
      summary := "Tokens are separated by a single space"
      check := some Spacing.multipleSpaces },
    { id := "WHITESPACE.OPERATOR_SPACING", category := .whitespace, severity := .warning
      summary := "Binary, assignment and ternary operators have a space on each side"
      check := some (Spacing.check .operator) },
    { id := "WHITESPACE.COMMA_SPACING", category := .whitespace, severity := .warning
      summary := "Commas take no space before and one after"
      check := some (Spacing.check .comma) },
    { id := "WHITESPACE.MEMBER_ACCESS", category := .whitespace, severity := .warning
      summary := "No spaces around . and ->"
      check := some (Spacing.check .member) },
    { id := "WHITESPACE.UNARY_SPACING", category := .whitespace, severity := .warning
      summary := "Unary operators sit directly against their operand"
      check := some (Spacing.check .unary) },
    { id := "WHITESPACE.PAREN_SPACING", category := .whitespace, severity := .warning
      summary := "No spaces inside parentheses and brackets or before a call's parenthesis"
      check := some Spacing.parenSpacing },
    { id := "WHITESPACE.KEYWORD_SPACING", category := .whitespace, severity := .warning
      summary := "Control keywords are followed by a space before ("
      check := some Spacing.keywordSpacing },
    { id := "WHITESPACE.SEMICOLON_SPACING", category := .whitespace, severity := .warning
      summary := "No space before a semicolon"
      check := some (Spacing.check .semicolon) },
    { id := "WHITESPACE.BRACE_OPEN_LINE", category := .whitespace, severity := .warning
      summary := "Opening braces of blocks sit on their own line"
      check := some braceOpenLine },
    { id := "WHITESPACE.BRACE_CLOSE_LINE", category := .whitespace, severity := .warning
      summary := "Closing braces of blocks sit on their own line"
      check := some braceCloseLine },
    { id := "WHITESPACE.INDENTATION", category := .whitespace, severity := .warning
      summary := "Indentation is a multiple of the indent width"
      check := some indentation },
    { id := "WHITESPACE.BLANK_LINES", category := .whitespace, severity := .info
      summary := "No long runs of blank lines"
      check := some blankLines },
    { id := "WHITESPACE.FINAL_NEWLINE", category := .whitespace, severity := .warning
      summary := "Files end with a line break"
      check := some finalNewline },
    { id := "WHITESPACE.LINE_ENDING", category := .whitespace, severity := .warning
      summary := "Line endings are consistent and not bare CR"
      check := some lineEnding } ]

end CodeStyle.Rule.Layout
